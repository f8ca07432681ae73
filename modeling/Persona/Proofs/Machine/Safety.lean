import Persona.Proofs.Bytecode.RoundTrip
import Persona.Proofs.Bytecode.Validity
import Persona.Proofs.Builtin.Effect
import Persona.Proofs.Machine.Upkeep

/-! What the structural checks promise to the machine.

The pointer of a machine that runs a valid program stands at an instruction or at the end
of the code, so does every place that a call returns to, and every function that a value
holds enters at an instruction. Each instruction keeps this, whatever the values are; so
of the faults of the code only those are left that no check of single instructions can
exclude. -/
namespace Persona

open Effect (Keeps)

/-- Where a run may stand: at an instruction, or behind the last one. -/
def Bytecode.Place (p : Bytecode) (is : List (Nat × Instruction)) (o : Nat) : Prop :=
  Starts is o ∨ o = p.code.length

/-- A function of compiled code that enters at an instruction. -/
def FunctionBody.Enters (is : List (Nat × Instruction)) : FunctionBody → Prop
  | compiled entry => Starts is entry
  | script _ => False

/-- The places and functions in a machine are those of the program. -/
structure Machine.Intact (p : Bytecode) (is : List (Nat × Instruction)) (m : Machine) : Prop where
  pointer : p.Place is m.pointer
  returns : ∀ f ∈ m.frames, p.Place is f.returnTo
  stack : ∀ v ∈ m.stack.values, v.Holds (FunctionBody.Enters is)
  session : m.session.Holds (FunctionBody.Enters is)

/-- The faults that valid code can have. -/
inductive CodeFault.Excused (p : Bytecode) : CodeFault → Prop
  | ending : Excused p (.decoding (.truncated p.code.length .halt))
  | underflow : Excused p .underflow
  | noIterator : Excused p .noIterator
  | extension {head tail : Kind} : ¬(head = .array ∧ tail = .array) → ¬(head = .map ∧ tail = .map) →
    Excused p (.extension head tail)
  | logicalAnd : Excused p (.logicalOperator .and)
  | logicalOr : Excused p (.logicalOperator .or)

def Fault.Excused (p : Bytecode) (e : Fault) : Prop := ∀ c, e = .code c → c.Excused p

theorem Fault.Plain.excused {p : Bytecode} {e : Fault} (h : e.Plain) : e.Excused p :=
  fun c hc => absurd hc (h c)

theorem excused_code {p : Bytecode} {c : CodeFault} (h : c.Excused p) : Fault.Excused p (.code c) := by
  intro c' hc
  cases hc
  exact h

/-! ### Faults -/

theorem Value.fails_extend {p : Bytecode} (limits : Limits) (head tail : Value) :
    Fails (Fault.Excused p) (extend limits head tail) := by
  unfold extend
  split
  · next xs ys =>
    have hcheck := fails_checkArrayLength (xs.size + ys.size) limits
    exact (hcheck.imp fun _ he => he.excused).bind fun _ => fails_ok _
  · exact fails_ok _
  · next harrays hmaps =>
    refine fails_error (excused_code (.extension ?_ ?_))
    · rintro ⟨ha, hb⟩
      cases head with
      | array xs =>
        cases tail with
        | array ys => exact harrays xs ys rfl rfl
        | _ => cases hb
      | _ => cases ha
    · rintro ⟨ha, hb⟩
      cases head with
      | map m =>
        cases tail with
        | map n => exact hmaps m n rfl rfl
        | _ => cases hb
      | _ => cases ha

/-! ### Parts of instructions -/

namespace Machine

variable {p : Bytecode} {is : List (Nat × Instruction)} {h : Host}

/-- The computation keeps the machine intact and has only excused faults. -/
abbrev Safe (p : Bytecode) (is : List (Nat × Instruction)) (Q : α → Prop) (x : Exec α) : Prop :=
  Keeps (Intact p is) (Fault.Excused p) Q x

theorem excused_of_logicalOnly {e : Fault} (he : Value.LogicalOnly e) : e.Excused p := by
  rcases he with hplain | rfl | rfl
  · exact hplain.excused
  · exact excused_code .logicalAnd
  · exact excused_code .logicalOr

theorem Intact.withSession {m : Machine} (hm : m.Intact p is) {session : Session}
    (hs : session.Holds (FunctionBody.Enters is)) : Intact p is { m with session } :=
  ⟨hm.pointer, hm.returns, hm.stack, hs⟩

/-- What is intact has no other functions than those that enter at an instruction. -/
theorem upkeep_intact (h : Host) (p : Bytecode) (is : List (Nat × Instruction)) :
    Upkeep h (Fault.Excused p) (fun g => g.body.Enters is) (Intact p is) where
  operands hm := hm.stack
  session hm := hm.session
  stack hm hs := ⟨hm.pointer, hm.returns, hs, hm.session⟩
  inert _ _ _ := ⟨fun _ _ hm => hm.withSession hm.session, fun _ _ hm => hm.withSession hm.session,
    fun _ _ hm _ => hm.withSession hm.session⟩
  profile hm := hm.withSession hm.session
  made hm := hm.withSession hm.session
  scope hm := hm.withSession hm.session
  logical := excused_of_logicalOnly
  extension he := Value.fails_extend h.limits _ _ _ he
  underflow := excused_code .underflow
  noIterator := excused_code .noIterator

/-! ### Constants -/

theorem constant?_ofBytecode (p : Bytecode) (idx : Nat) :
    (Code.ofBytecode p).constant? idx = (p.constants[idx]?).map Constant.value := by
  show (p.constants.map Constant.value).toArray[idx]? = _
  rw [List.getElem?_toArray, List.getElem?_map]

theorem holds_constant {sort : Function → Prop} (c : Constant) : c.value.HoldsOnly sort := by
  cases c with
  | number bits => exact fun g hg => absurd hg (List.not_mem_nil)
  | string s => exact fun g hg => absurd hg (List.not_mem_nil)

theorem safe_constant {idx : Nat} (hidx : idx < p.constants.length) :
    Safe p is (fun v => v = p.constants[idx].value) (constant (.ofBytecode p) idx) := by
  unfold constant
  rw [constant?_ofBytecode, List.getElem?_eq_getElem hidx]
  exact Keeps.pure rfl

theorem safe_name {idx : Nat} (hname : IsName p.constants idx) :
    Safe p is (fun _ => True) (name (.ofBytecode p) idx) := by
  obtain ⟨s, hs⟩ := hname
  unfold name
  rw [constant?_ofBytecode, hs]
  exact Keeps.pure trivial

theorem safe_names {idxs : List Nat} (hnames : ∀ idx ∈ idxs, IsName p.constants idx) :
    Safe p is (fun _ => True) (names (.ofBytecode p) idxs) := by
  induction idxs with
  | nil => exact Keeps.pure trivial
  | cons idx idxs ih =>
    obtain ⟨hname, hrest⟩ := List.forall_mem_cons.1 hnames
    exact (safe_name hname).bind fun _ _ => (ih hrest).bind fun _ _ => Keeps.pure trivial

theorem safe_traitValues {entries : List (Trait × Nat)}
    (hnumbers : ∀ e ∈ entries, IsNumber p.constants e.2) :
    Safe p is (fun _ => True) (traitValues (.ofBytecode p) entries) := by
  induction entries with
  | nil => exact Keeps.pure trivial
  | cons e entries ih =>
    obtain ⟨t, idx⟩ := e
    obtain ⟨hnumber, hrest⟩ := List.forall_mem_cons.1 hnumbers
    obtain ⟨bits, hbits⟩ := hnumber
    have hidx : idx < p.constants.length := (List.getElem?_eq_some_iff.1 hbits).1
    have hvalue : p.constants[idx] = .number bits := (List.getElem?_eq_some_iff.1 hbits).2
    refine (safe_constant hidx).bind fun v hv => ?_
    rw [hv, hvalue]
    exact (ih hrest).bind fun _ _ => Keeps.pure trivial

/-! ### Control -/

theorem safe_goto {o : Nat} (ho : p.Place is o) : Safe p is (fun _ => True) (goto o) :=
  Keeps.modify fun _ hm => ⟨ho, hm.returns, hm.stack, hm.session⟩

/-- A jump that lands stays in the code. -/
theorem safe_jump (hv : p.Valid is) {o : Nat} {d : Int}
    (hlands : ∃ t, Starts is t ∧ ((o + 3 : Nat) : Int) + d = t) :
    Safe p is (fun _ => True) (jump (.ofBytecode p) (o + 3) d) := by
  obtain ⟨t, ht, htarget⟩ := hlands
  have hle : t ≤ (Code.ofBytecode p).length := by
    obtain ⟨⟨o', i⟩, hmem, rfl⟩ := List.mem_map.1 ht
    exact Nat.le_of_lt (hv.decodes.decodeAt hmem).1
  unfold jump Instruction.jumpTarget?
  rw [htarget]
  simp only [hle, if_true]
  exact safe_goto (.inl ht)

/-! ### Steps -/

/-- Every instruction of a valid program keeps the machine intact. -/
theorem safe_execute (hv : p.Valid is) {o next : Nat} {i : Instruction} (hmem : (o, i) ∈ is)
    (hnext : p.Place is next) (hjump : ∀ d, i.jumpDistance? = some d → next = o + 3) :
    Safe p is (fun _ => True) (execute h (.ofBytecode p) next i) := by
  have U := upkeep_intact h p is
  have hfits := hv.fits _ hmem
  have hlands := hv.lands _ hmem
  cases i with
  | pushConst idx =>
    refine (safe_constant hfits).bind fun v hw => ?_
    rw [hw]
    exact U.pushed (holds_constant _)
  | loadVar idx => exact (safe_name hfits).bind fun s _ => (U.lookup s).bind fun v hw => U.pushed hw
  | storeVar idx =>
    exact U.storeVar (safe_name hfits) fun _ hw hm => hm.withSession (hm.session.assign hw _)
  | defineVar idx =>
    exact U.defineVar (safe_name hfits) fun _ hw hm => hm.withSession (hm.session.define hw _)
  | call argc discard =>
    refine U.call (fun {g body} hg hbody => ?_) fun {m g vs entry} hg hbody hvs hm => ?_
    · rw [hbody] at hg
      exact hg.elim
    · rw [hbody] at hg
      exact ⟨.inl hg, List.forall_mem_cons.2 ⟨hnext, hm.returns⟩, hm.stack, hm.session.defineAll hvs _⟩
  | ret =>
    refine U.ret fun {m f rest} hframes hm => ?_
    have hreturns := hm.returns
    rw [hframes] at hreturns
    obtain ⟨hf, hrest⟩ := List.forall_mem_cons.1 hreturns
    exact ⟨hf, hrest, fun w hw => hm.stack w (List.mem_of_mem_drop hw), hm.session.pop⟩
  | jump d =>
    obtain rfl := hjump d rfl
    exact U.jump (safe_jump hv (hlands d rfl))
  | jumpIfFalse d =>
    obtain rfl := hjump d rfl
    exact U.jumpIfFalse (safe_jump hv (hlands d rfl))
  | forNext d =>
    obtain rfl := hjump d rfl
    exact U.forNext (safe_jump hv (hlands d rfl))
  | makeFunction fn params entry =>
    refine (safe_name hfits.1).bind fun s _ => (safe_names hfits.2.1).bind fun ps _ => ?_
    exact (U.makeFunction s ps (.compiled entry) fun _ => hfits.2.2).bind fun v hw => U.pushed hw
  | personality entries =>
    exact (safe_traitValues hfits).bind fun ts _ => (U.applyPersonality ts).bind fun _ _ => Keeps.pure trivial
  | _ => exact U.onOperands rfl

/-! ### Runs -/

theorem fetch_ofBytecode (p : Bytecode) (o : Nat) :
    (Code.ofBytecode p).fetch o = Instruction.decodeAt p.code o := Instruction.table_getD p.code o

theorem safe_step (hv : p.Valid is) : Safe p is (fun _ => True) (step h (.ofBytecode p)) := by
  refine Keeps.get fun m hm => ?_
  rcases hm.pointer with hstart | hend
  · obtain ⟨⟨o, i⟩, hmem, ho⟩ := List.mem_map.1 hstart
    obtain ⟨-, next, hdecode, hnext⟩ := hv.decodes.decodeAt hmem
    have hplace : p.Place is next := by
      rcases hnext with hend | ⟨j, hj⟩
      · exact .inr hend
      · exact .inl (List.mem_map.2 ⟨_, hj, rfl⟩)
    have hjump : ∀ d, i.jumpDistance? = some d → next = o + 3 := by
      intro d hd
      obtain ⟨n, hn, rfl⟩ := Instruction.decodeAt_ok.1 hdecode
      rw [Instruction.decode_jump hn hd]
    rw [fetch_ofBytecode, ← ho, hdecode]
    exact (safe_goto hplace).bind fun _ _ => safe_execute hv hmem hplace hjump
  · have hdecode : Instruction.decodeAt p.code p.code.length =
        .error (.truncated p.code.length .halt) := by
      rw [Instruction.decodeAt, List.drop_length]
      rfl
    rw [fetch_ofBytecode, hend, hdecode]
    exact Keeps.throw (excused_code .ending)

/-- A run keeps the machine intact, however many steps it takes and however it ends. -/
theorem safe_run (hv : p.Valid is) (fuel : Nat) {m : Machine} (hm : m.Intact p is) :
    Intact p is (run h (.ofBytecode p) fuel m).2 ∧
      ∀ e, (run h (.ofBytecode p) fuel m).1 = some (.error e) → e.Excused p := by
  induction fuel generalizing m with
  | zero => exact ⟨hm, fun e he => by cases he⟩
  | succ fuel ih =>
    obtain ⟨hI, -, hF⟩ := safe_step (h := h) hv m hm
    unfold run
    cases hstep : step h (.ofBytecode p) m with
    | mk r m' =>
      rw [hstep] at hI hF
      cases r with
      | error e =>
        refine ⟨hI, fun e' he => ?_⟩
        cases he
        exact hF e rfl
      | ok progress =>
        cases progress with
        | running => exact ih hI
        | halted => exact ⟨hI, fun e he => by cases he⟩

end Machine

theorem Session.holds_start {sort : FunctionBody → Prop} (h : Host) (profile : Profile) (clock : Clock) :
    (Session.start h profile clock).Holds sort := fun _ hg => absurd hg (List.not_mem_nil)

/-- What is read from an image has passed the structural checks. -/
theorem Bytecode.exists_valid_of_load {image : List UInt8} {p : Bytecode}
    (h : Bytecode.load image = .ok p) : ∃ is, p.Valid is := by
  unfold Bytecode.load at h
  split at h
  · cases h
  · split at h
    · cases h
    · simp only at h
      split at h
      · cases h
      · split at h
        · cases h
        · next q _ _ _ _ _ _ hvalidate =>
          cases h
          exact Bytecode.validate_iff.1 hvalidate
    · cases h

/-- A program that is read from an image never leaves its instructions: after any number of
steps the pointer and every place to return to is the start of an instruction or the end of
the code, and every function that is held anywhere enters at the start of an instruction. The
faults of the code that are left come from operands, or from the end of the code. -/
theorem run_intact_of_load {image : List UInt8} {p : Bytecode} (hload : Bytecode.load image = .ok p) :
    ∃ is, p.Valid is ∧ ∀ (h : Host) (profile : Profile) (clock : Clock) (fuel : Nat),
      (Machine.run h (.ofBytecode p) fuel (.start p (.start h profile clock))).2.Intact p is ∧
        ∀ c, (Machine.run h (.ofBytecode p) fuel (.start p (.start h profile clock))).1 =
          some (.error (.code c)) → c.Excused p := by
  obtain ⟨is, hv⟩ := Bytecode.exists_valid_of_load hload
  refine ⟨is, hv, fun h profile clock fuel => ?_⟩
  have hstart : (Machine.start p (.start h profile clock)).Intact p is := by
    refine ⟨.inl hv.entry, ?_, ?_, Session.holds_start h profile clock⟩
    · exact fun f hf => absurd hf (List.not_mem_nil)
    · exact fun v hw => absurd hw (List.not_mem_nil)
  obtain ⟨hintact, hfaults⟩ := Machine.safe_run (h := h) hv fuel hstart
  exact ⟨hintact, fun c hc => hfaults _ hc c rfl⟩

/-- A function whose body is the end of the code. -/
def runsOff : Bytecode := ⟨[.string "f"], [18, 0, 0, 5, 48, 2], 0⟩

theorem valid_runsOff : runsOff.Valid [(0, .makeFunction 0 [] 5), (4, .call 0 false), (5, .pushNull)] := by
  have hentry : Starts [(0, .makeFunction 0 [] 5), (4, .call 0 false), (5, .pushNull)] 5 :=
    List.mem_map.2 ⟨(5, .pushNull), by decide, rfl⟩
  refine ⟨Instruction.decodeAll_eq_iff.1 (by decide +kernel), List.mem_cons_self .., ?_, ?_⟩
  · refine List.forall_mem_cons.2 ⟨⟨⟨"f", rfl⟩, ?_, hentry⟩, ?_⟩
    · exact fun idx hidx => absurd hidx (List.not_mem_nil)
    · exact List.forall_mem_cons.2 ⟨trivial, List.forall_mem_singleton.2 trivial⟩
  · intro x hx d hd
    simp only [List.mem_cons, List.not_mem_nil, or_false] at hx
    rcases hx with rfl | rfl | rfl
    · cases hd
    · cases hd
    · cases hd

theorem load_runsOff : Bytecode.load runsOff.image = .ok runsOff := by
  refine Bytecode.load_of_valid ⟨by decide, ?_, by decide, by decide⟩ valid_runsOff
  intro s hs
  cases List.mem_singleton.1 hs
  decide

theorem run_runsOff :
    (Machine.run {} (.ofBytecode runsOff) 5 (.start runsOff (.start {} .default none))).1 =
        some (.error (.code (.decoding (.truncated 6 .halt)))) ∧
      CodeFault.Excused runsOff (.decoding (.truncated 6 .halt)) ∧
      ∃ is, runsOff.Valid is ∧
        (Machine.run {} (.ofBytecode runsOff) 5 (.start runsOff (.start {} .default none))).2.Intact
          runsOff is := by
  have hfault : (Machine.run {} (.ofBytecode runsOff) 5
      (.start runsOff (.start {} .default none))).1 =
        some (.error (.code (.decoding (.truncated 6 .halt)))) := by decide +kernel
  obtain ⟨is, hv, hrun⟩ := run_intact_of_load load_runsOff
  obtain ⟨hintact, hexcused⟩ := hrun {} .default none 5
  exact ⟨hfault, hexcused _ hfault, is, hv, hintact⟩

end Persona
