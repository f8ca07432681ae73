import Persona.Proofs.Machine.Calm
import Persona.Proofs.Machine.Steps

/-! A budget bounds a run, unless a test jumps backwards.

A call of a function and a plain jump backwards look at the clock, and so does the head of a
loop that has an item. All other steps go forward in the code, or out of a call. So if no
conditional jump goes backwards, there are only so many steps between two looks: no more than
there are places in the code for each call that may be open. -/
namespace Persona

open Effect (Keeps Leads)

/-- If the instruction jumps without a look at the clock, it jumps forward. -/
def Instruction.IsForward : Instruction → Prop
  | jumpIfFalse d | forNext d => 0 ≤ d
  | _ => True

instance (i : Instruction) : Decidable i.IsForward := by
  unfold Instruction.IsForward
  split <;> infer_instance

namespace Machine

variable {h : Host} {c : Code} {pointer o next looks k : Nat} {frames : List CallFrame} {m m' : Machine}

/-- A result comes with a machine that fits it. -/
abbrev Goes (I : Machine → Prop) (Q : α → Machine → Prop) (x : Exec α) : Prop :=
  Leads I (fun _ => True) Q x

/-- At this place in these calls, with fewer looks left. -/
structure Standing (pointer : Nat) (frames : List CallFrame) (looks : Nat) (m : Machine) : Prop where
  place : m.pointer = pointer
  calls : m.frames = frames
  depth : m.session.depth = frames.length
  clock : ∃ k < looks, m.session.clock = some k

theorem calm_standing (h : Host) (pointer : Nat) (frames : List CallFrame) (looks : Nat) :
    Calm h (Standing pointer frames looks) where
  stack _ _ _ hm := ⟨hm.place, hm.calls, hm.depth, hm.clock⟩
  session pointer' stack frames' :=
    { print := fun _ _ hm => ⟨hm.place, hm.calls, hm.depth, hm.clock⟩
      call := fun _ _ hm => ⟨hm.place, hm.calls, hm.depth, hm.clock⟩
      look := by
        rintro s clock ⟨hpointer, hframes, hdepth, k, hk, hclock⟩ hlook
        refine ⟨hpointer, hframes, hdepth, ?_⟩
        rw [show s.clock = some k from hclock] at hlook
        cases k with
        | zero => cases hlook
        | succ k =>
          cases hlook
          exact ⟨k, by omega, rfl⟩
      define := fun s name v hm =>
        ⟨hm.place, hm.calls, (s.depth_define name v).trans hm.depth, by
          rw [s.clock_define]
          exact hm.clock⟩
      assign := fun s name v hm =>
        ⟨hm.place, hm.calls, (s.depth_assign name v).trans hm.depth, by
          rw [s.clock_assign]
          exact hm.clock⟩
      profile := fun _ _ hm => ⟨hm.place, hm.calls, hm.depth, hm.clock⟩
      made := fun _ _ hm => ⟨hm.place, hm.calls, hm.depth, hm.clock⟩ }

/-- What a step from a place leads to: it looks at the clock, or it goes forward, or it leaves
the innermost call. -/
inductive Moves (h : Host) (o : Nat) (frames : List CallFrame) (looks : Nat) (m : Machine) : Prop
  | looked {pointer : Nat} {frames' : List CallFrame} : frames'.length ≤ h.limits.maxCallDepth →
    Standing pointer frames' looks m → Moves h o frames looks m
  | forward {pointer : Nat} : o < pointer → Standing pointer frames (looks + 1) m → Moves h o frames looks m
  | returned {pointer : Nat} {f : CallFrame} {rest : List CallFrame} : frames = f :: rest →
    Standing pointer rest (looks + 1) m → Moves h o frames looks m

/-! ### Instructions -/

theorem leads_look : Goes (Standing pointer frames (looks + 1)) (fun _ => Standing pointer frames looks)
    (act (Action.checkBudget h)) := by
  rintro m ⟨hpointer, hframes, hdepth, k, hk, hclock⟩
  refine ⟨fun u t ht => ?_, fun _ _ _ => trivial⟩
  rw [act_apply, Action.checkBudget_eq, hclock] at ht
  cases k with
  | zero => cases ht
  | succ k =>
    cases ht
    exact ⟨hpointer, hframes, hdepth, k, by omega, rfl⟩

/-- A call is not begun without a look, nor when as many are open as may be. -/
theorem leads_push : Goes (Standing next frames (looks + 1))
    (fun _ m => frames.length < h.limits.maxCallDepth ∧ m.frames = frames ∧
      m.session.depth = frames.length + 1 ∧ ∃ k < looks, m.session.clock = some k)
    (act (Action.push h)) := by
  rintro m ⟨hpointer, hframes, hdepth, k, hk, hclock⟩
  refine ⟨fun u t ht => ?_, fun _ _ _ => trivial⟩
  rw [act_apply, Action.push_eq, hclock] at ht
  cases k with
  | zero => cases ht
  | succ k =>
    simp only [Clock.look?] at ht
    split at ht
    · cases ht
    · cases ht
      refine ⟨by omega, hframes, ?_, k, by omega, rfl⟩
      show m.session.frames.length + 1 = _
      rw [show m.session.frames.length = frames.length from hdepth]

theorem leads_kept {x : Exec α} (hx : Kept (Standing pointer frames looks) x) :
    Goes (Standing pointer frames looks) (fun _ => Standing pointer frames looks) x :=
  (Leads.of_keeps hx).imp fun _ _ hm => hm.2

theorem leads_stack (f : Machine → Stack) : Goes (Standing pointer frames looks)
    (fun _ => Standing pointer frames looks) (modify fun m => { m with stack := f m } : Exec PUnit) :=
  Leads.modify fun _ hm => ⟨hm.place, hm.calls, hm.depth, hm.clock⟩

theorem leads_jump {d : Int} : Goes (Standing pointer frames looks)
    (fun _ m => ∃ t : Nat, (next : Int) + d = t ∧ Standing t frames looks m) (jump c next d) := by
  unfold jump
  split
  · next target htarget =>
    split
    · exact Leads.modify fun m hm =>
        ⟨target, Instruction.eq_of_jumpTarget? htarget, rfl, hm.calls, hm.depth, hm.clock⟩
    · exact Leads.throw trivial
  · exact Leads.throw trivial

theorem leads_forward {d : Int} (ho : o < next) (hd : 0 ≤ d) :
    Goes (Standing pointer frames (looks + 1)) (fun _ => Moves h o frames looks) (jump c next d) := by
  refine leads_jump.imp fun _ m hm => ?_
  obtain ⟨t, ht, hm⟩ := hm
  exact .forward (by omega) hm

theorem leads_call (ho : o < next) {argc : Nat}
    {discard : Bool} : Goes (Standing next frames (looks + 1)) (fun _ => Moves h o frames looks)
      (call h next argc discard) := by
  have hcalm := calm_standing h next frames (looks + 1)
  refine (leads_kept (kept_popMany hcalm argc)).bind fun vs => ?_
  refine (leads_kept (kept_pop hcalm)).bind fun v => ?_
  cases v with
  | builtin b =>
    refine (leads_kept (kept_act hcalm (Action.tame_call h b vs))).bind fun result => ?_
    cases discard with
    | true => exact Leads.pure fun m hm => .forward ho hm
    | false => exact (leads_kept (kept_push hcalm result)).imp fun _ m hm => .forward ho hm
  | function g =>
    simp only
    cases g.body with
    | script body => exact Leads.throw trivial
    | compiled entry =>
      simp only
      split
      · exact Leads.throw trivial
      · refine leads_push.bind fun _ => Leads.modify ?_
        rintro m ⟨hroom, hframes, hdepth, hclock⟩
        have hin : Standing entry (⟨next, m.stack.height, discard⟩ :: frames) looks
            ⟨entry, m.stack, ⟨next, m.stack.height, discard⟩ :: m.frames, m.session⟩ :=
          ⟨rfl, by rw [hframes], hdepth, hclock⟩
        have hcalm := (calm_standing h entry (⟨next, m.stack.height, discard⟩ :: frames) looks).session
        exact .looked (by rwa [List.length_cons]) ((hcalm _ _ _).defineAll hin _)
  | _ => exact Leads.throw trivial

theorem leads_ret : Goes (Standing next frames (looks + 1))
    (fun r m => r = .running → Moves h o frames looks m) (ret h) := by
  have hcalm := calm_standing h next frames (looks + 1)
  refine (leads_kept (kept_pop hcalm)).bind fun v => Leads.get fun m hm => ?_
  cases hframes : m.frames with
  | nil => exact Leads.pure fun _ _ hr => nomatch hr
  | cons f rest =>
    obtain rfl : frames = f :: rest := hm.calls.symm.trans hframes
    have hleft := calm_standing h f.returnTo rest (looks + 1)
    have hleave : Goes (· = m) (fun _ => Standing f.returnTo rest (looks + 1)) (modify fun m : Machine => { m with
        stack := m.stack.truncate f.base
        frames := rest
        session := m.session.pop
        pointer := f.returnTo } : Exec PUnit) := by
      refine Leads.modify ?_
      rintro m rfl
      refine ⟨rfl, rfl, ?_, hm.clock⟩
      show m.session.frames.tail.length = rest.length
      have hdepth : m.session.frames.length = rest.length + 1 := hm.depth
      rw [List.length_tail, hdepth]
      rfl
    refine hleave.bind fun _ => ?_
    cases f.discard with
    | true => exact Leads.pure fun m hm _ => .returned rfl hm
    | false => 
      exact (leads_kept (kept_push hleft v)).bind fun _ => Leads.pure fun m hm _ => .returned rfl hm

theorem leads_forNext (hdepth : frames.length ≤ h.limits.maxCallDepth) (ho : o < next) {d : Int}
    (hd : 0 ≤ d) : Goes (Standing next frames (looks + 1)) (fun _ => Moves h o frames looks)
      (forNext h c next d) := by
  refine Leads.get fun m hm => ?_
  simp only
  split
  · exact Leads.throw trivial
  · next items used _ =>
    suffices hleads : Goes (Standing next frames (looks + 1)) (fun _ => Moves h o frames looks) _ from
      fun m' hm' => hleads m' (hm' ▸ hm)
    split
    · next item _ =>
      refine leads_look.bind fun _ => (leads_stack _).bind fun _ => ?_
      exact (leads_kept (kept_push (calm_standing h next frames looks) item)).imp
        fun _ m' hm' => .looked hdepth hm'
    · exact (leads_stack _).bind fun _ => leads_forward ho hd

/-! ### Steps -/

/-- What an instruction leads to, if it jumps forward only. -/
theorem leads_execute (hdepth : frames.length ≤ h.limits.maxCallDepth) (ho : o < next) {i : Instruction}
    (hi : i.IsForward) : Goes (Standing next frames (looks + 1))
      (fun r m => r = .running → Moves h o frames looks m) (execute h c next i) := by
  have hcalm := calm_standing h next frames (looks + 1)
  have hgo : ∀ x : Exec Unit, Goes (Standing next frames (looks + 1)) (fun _ => Moves h o frames looks) x →
      Goes (Standing next frames (looks + 1)) (fun r m => r = .running → Moves h o frames looks m)
        (do x; return Progress.running) := fun _ hx => hx.bind fun _ => Leads.pure fun _ hm _ => hm
  by_cases hstraight : i.IsStraight = true
  · exact (leads_kept (kept_execute hcalm hstraight)).imp fun _ _ hm _ => .forward ho hm
  cases i with
  | call argc discard => exact hgo _ (leads_call ho)
  | ret => exact leads_ret
  | jump d =>
    unfold execute
    simp only
    split
    · refine leads_look.bind fun _ => leads_jump.bind fun _ => Leads.pure ?_
      rintro m ⟨t, -, hm⟩ -
      exact .looked hdepth hm
    · next hback => exact hgo _ (leads_forward ho (by omega))
  | jumpIfFalse d =>
    refine (leads_kept (kept_pop hcalm)).bind fun v => ?_
    cases v.isTruthy with
    | true => exact Leads.pure fun m hm _ => .forward ho hm
    | false => exact hgo _ (leads_forward ho hi)
  | forNext d => exact hgo _ (leads_forNext hdepth ho hi)
  | _ => exact absurd rfl hstraight

/-! ### Runs -/

/-- So many looks are left, and no more calls are open than may be. -/
structure Paced (h : Host) (looks : Nat) (m : Machine) : Prop where
  clock : m.session.clock = some looks
  depth : m.session.depth = m.frames.length
  bounded : m.frames.length ≤ h.limits.maxCallDepth

/-- The places in the code for each call that may be open: more than the steps between two
looks at the clock. -/
def window (h : Host) (c : Code) : Nat := (h.limits.maxCallDepth + 1) * (c.length + 1)

/-- The places that are left for this call and for those around it. -/
def ahead (c : Code) (m : Machine) : Nat := m.frames.length * (c.length + 1) + (c.length - m.pointer)

/-- Steps that are left at most: a window for every look, and the places ahead. -/
def rank (h : Host) (c : Code) (looks : Nat) (m : Machine) : Nat := looks * window h c + ahead c m

theorem Paced.ahead_lt (hm : Paced h looks m) : ahead c m < window h c := by
  have hcalls : m.frames.length * (c.length + 1) ≤ h.limits.maxCallDepth * (c.length + 1) :=
    Nat.mul_le_mul_right _ hm.bounded
  unfold ahead window
  rw [Nat.succ_mul]
  omega

theorem Standing.paced (hm : Standing pointer frames looks m) (hframes : frames.length ≤ h.limits.maxCallDepth) :
    ∃ k < looks, Paced h k m := by
  obtain ⟨k, hk, hclock⟩ := hm.clock
  exact ⟨k, hk, hclock, by rw [hm.depth, hm.calls], by rwa [hm.calls]⟩

/-- A step takes of the rank. -/
theorem Moves.rank_lt (hm : Paced h looks m) (hplace : m.pointer < c.length)
    (hmoves : Moves h m.pointer m.frames looks m') :
    ∃ k, Paced h k m' ∧ rank h c k m' < rank h c looks m := by
  cases hmoves with
  | looked hframes hstands =>
    obtain ⟨k, hk, hpaced⟩ := hstands.paced hframes
    have hwindow : (k + 1) * window h c ≤ looks * window h c := Nat.mul_le_mul_right _ hk
    rw [Nat.succ_mul] at hwindow
    have hahead := hpaced.ahead_lt (c := c)
    exact ⟨k, hpaced, by unfold rank; omega⟩
  | forward hpointer hstands =>
    obtain ⟨k, hk, hpaced⟩ := hstands.paced hm.bounded
    have hwindow : k * window h c ≤ looks * window h c := Nat.mul_le_mul_right _ (by omega)
    refine ⟨k, hpaced, ?_⟩
    unfold rank ahead
    rw [hstands.place, hstands.calls]
    omega
  | returned hframes hstands =>
    have hbounded := hm.bounded
    rw [hframes, List.length_cons] at hbounded
    obtain ⟨k, hk, hpaced⟩ := hstands.paced (h := h) (by omega)
    have hwindow : k * window h c ≤ looks * window h c := Nat.mul_le_mul_right _ (by omega)
    refine ⟨k, hpaced, ?_⟩
    unfold rank ahead
    rw [hstands.calls, hframes, List.length_cons, Nat.succ_mul]
    omega

section
variable {p : Bytecode} {is : List (Nat × Instruction)} {n : Nat}

/-- A machine that can take a step stands at an instruction of its program. -/
theorem Intact.fetch (hv : p.Valid is) (hm : m.Intact p is)
    (hstep : Machine.step h (.ofBytecode p) m = (.ok .running, m')) :
    ∃ i next, (m.pointer, i) ∈ is ∧ (Code.ofBytecode p).fetch m.pointer = .ok (i, next) ∧
      m.pointer < next ∧ m.pointer < p.code.length := by
  rcases hm.pointer with hstart | hend
  · obtain ⟨⟨o, i⟩, hmem, ho⟩ := List.mem_map.1 hstart
    obtain ⟨hlt, next, hdecode, -⟩ := hv.decodes.decodeAt hmem
    obtain ⟨taken, hn, rfl⟩ := Instruction.decodeAt_ok.1 hdecode
    have hpos := (Instruction.decode_taken hn).1
    rw [fetch_ofBytecode, ← ho]
    exact ⟨i, o + taken, hmem, hdecode, by omega, hlt⟩
  · have hdecode : Instruction.decodeAt p.code m.pointer = .error (.truncated p.code.length .halt) := by
      rw [hend, Instruction.decodeAt, List.drop_length]
      rfl
    unfold Machine.step at hstep
    rw [Effect.get_bind_apply, fetch_ofBytecode, hdecode] at hstep
    cases hstep

/-- A step of a program that tests forward only takes of the rank. -/
theorem Paced.step (hv : p.Valid is) (hforward : ∀ x ∈ is, x.2.IsForward) (hm : m.Intact p is)
    (hpaced : Paced h looks m) (hstep : step h (.ofBytecode p) m = (.ok .running, m')) :
    ∃ k, Paced h k m' ∧ rank h (.ofBytecode p) k m' < rank h (.ofBytecode p) looks m := by
  obtain ⟨i, next, hmem, hfetch, hnext, hplace⟩ := hm.fetch hv hstep
  rw [step_eq hfetch] at hstep
  have hstands : Standing next m.frames (looks + 1) { m with pointer := next } :=
    ⟨rfl, rfl, hpaced.depth, looks, Nat.lt_succ_self looks, hpaced.clock⟩
  exact Moves.rank_lt hpaced hplace
    ((leads_execute hpaced.bounded hnext (hforward _ hmem) _ hstands).1 _ _ hstep rfl)

theorem Paced.steps (hv : p.Valid is) (hforward : ∀ x ∈ is, x.2.IsForward) (hm : m.Intact p is)
    (hpaced : Paced h looks m) (hsteps : Steps h (.ofBytecode p) n m m') :
    ∃ k, Paced h k m' ∧ rank h (.ofBytecode p) k m' + n ≤ rank h (.ofBytecode p) looks m := by
  induction hsteps generalizing looks with
  | none m => exact ⟨looks, hpaced, Nat.le_refl _⟩
  | more hstep _ ih =>
    obtain ⟨k, hpaced', hlt⟩ := hpaced.step hv hforward hm hstep
    obtain ⟨k', hpaced'', hle⟩ := ih (hm.step hv hstep) hpaced'
    exact ⟨k', hpaced'', by omega⟩

/-- A window of steps has a look at the clock. -/
theorem Paced.window (hv : p.Valid is) (hforward : ∀ x ∈ is, x.2.IsForward) (hm : m.Intact p is)
    (hpaced : Paced h looks m) (hsteps : Steps h (.ofBytecode p) (window h (.ofBytecode p)) m m') :
    ∃ k < looks, m'.session.clock = some k := by
  obtain ⟨k, hpaced', hle⟩ := hpaced.steps hv hforward hm hsteps
  have hahead := hpaced.ahead_lt (c := .ofBytecode p)
  unfold rank at hle
  refine ⟨k, Nat.lt_of_not_le fun hk => ?_, hpaced'.clock⟩
  have hwindow := Nat.mul_le_mul_right (Machine.window h (.ofBytecode p)) hk
  omega

/-- A run on a budget ends. -/
theorem Paced.run_ends (hv : p.Valid is) (hforward : ∀ x ∈ is, x.2.IsForward) (hm : m.Intact p is)
    (hpaced : Paced h looks m) : ∃ fuel r m', run h (.ofBytecode p) fuel m = (some r, m') := by
  refine ⟨rank h (.ofBytecode p) looks m + 1, ?_⟩
  cases hrun : run h (.ofBytecode p) (rank h (.ofBytecode p) looks m + 1) m with
  | mk r m' =>
    cases r with
    | some r => exact ⟨r, m', rfl⟩
    | none =>
      obtain ⟨k, -, hle⟩ := hpaced.steps hv hforward hm (steps_of_run hrun)
      omega

theorem Paced.start (p : Bytecode) (h : Host) (profile : Profile) (looks : Nat) :
    Paced h looks (.start p (.start h profile (some looks))) := ⟨rfl, rfl, Nat.zero_le _⟩

end

end Machine

open Machine (Steps window)

/-- A valid program that tests forward only has an outcome on every budget. -/
theorem Bytecode.Valid.exists_execute {p : Bytecode} {is : List (Nat × Instruction)} (hv : p.Valid is)
    (hforward : ∀ x ∈ is, x.2.IsForward) (h : Host) (profile : Profile) (looks : Nat) :
    ∃ steps o, p.execute? h steps (.start h profile (some looks)) = some o := by
  have hintact := Machine.Intact.start hv h profile (some looks)
  obtain ⟨steps, r, m, hrun⟩ := (Machine.Paced.start p h profile looks).run_ends hv hforward hintact
  exact ⟨steps, _, by rw [Bytecode.execute?_eq, hrun]; rfl⟩

/-- What holds of a program that is read from an image if its conditional jumps go forward:
among so many steps in a row, wherever in its run, one has looked at the clock; and on any
budget its run comes to an end. -/
theorem window_of_load {image : List UInt8} {p : Bytecode} (hload : Bytecode.load image = .ok p)
    (hforward : ∀ x ∈ (Instruction.decodeAll p.code).1, x.2.IsForward) (h : Host) (profile : Profile)
    (looks : Nat) :
    (∀ n m m', Steps h (.ofBytecode p) n (.start p (.start h profile (some looks))) m →
      Steps h (.ofBytecode p) (window h (.ofBytecode p)) m m' →
        ∃ k k', m.session.clock = some k ∧ m'.session.clock = some k' ∧ k' < k) ∧
      ∃ steps o, p.execute? h steps (.start h profile (some looks)) = some o := by
  obtain ⟨is, hv⟩ := Bytecode.exists_valid_of_load hload
  rw [Instruction.decodeAll_eq_iff.2 hv.decodes] at hforward
  refine ⟨fun n m m' hn hwindow => ?_, hv.exists_execute hforward h profile looks⟩
  have hintact := Machine.Intact.start hv h profile (some looks)
  obtain ⟨k, hpaced, -⟩ := (Machine.Paced.start p h profile looks).steps hv hforward hintact hn
  obtain ⟨k', hlt, hclock⟩ := hpaced.window hv hforward (hintact.steps hv hn) hwindow
  exact ⟨k, k', hpaced.clock, hclock, hlt⟩

/-- A plain jump to itself. -/
def idle : Bytecode := ⟨[], [11, 253, 255], 0⟩

theorem valid_idle : idle.Valid [(0, .jump (-3))] where
  decodes := Instruction.decodeAll_eq_iff.1 (by decide +kernel)
  entry := List.mem_singleton_self 0
  fits := List.forall_mem_singleton.2 trivial
  lands := List.forall_mem_singleton.2 fun d hd => by
    cases hd
    exact ⟨0, List.mem_singleton_self 0, rfl⟩

theorem load_idle : Bytecode.load idle.image = .ok idle :=
  Bytecode.load_of_valid ⟨by decide, fun _ hs => (nomatch hs), by decide, by decide⟩ valid_idle

/-- The jump to itself looks at the clock each time. -/
theorem window_idle :
    (∀ n m m', Steps {} (.ofBytecode idle) n (.start idle (.start {} .default (some 7))) m →
      Steps {} (.ofBytecode idle) (window {} (.ofBytecode idle)) m m' →
        ∃ k k', m.session.clock = some k ∧ m'.session.clock = some k' ∧ k' < k) ∧
      ∃ steps o, idle.execute? {} steps (.start {} .default (some 7)) = some o := by
  have hforward : ∀ x ∈ (Instruction.decodeAll idle.code).1, x.2.IsForward := by decide +kernel
  exact window_of_load load_idle hforward {} .default 7

/-- A test that jumps back to the `false` that it takes. -/
def spin : Bytecode := ⟨[], [4, 12, 252, 255], 0⟩

theorem valid_spin : spin.Valid [(0, .pushFalse), (1, .jumpIfFalse (-4))] where
  decodes := Instruction.decodeAll_eq_iff.1 (by decide +kernel)
  entry := List.mem_cons_self ..
  fits := List.forall_mem_cons.2 ⟨trivial, List.forall_mem_singleton.2 trivial⟩
  lands := List.forall_mem_cons.2 ⟨fun d hd => (nomatch hd), List.forall_mem_singleton.2 fun d hd => by
    cases hd
    exact ⟨0, List.mem_cons_self .., rfl⟩⟩

/-- The run goes round, whatever the clock says. -/
theorem steps_spin (s : Session) (n : Nat) :
    Steps {} (.ofBytecode spin) n (.start spin s) (.start spin s) ∨
      Steps {} (.ofBytecode spin) n (.start spin s)
        { pointer := 1, stack := ({} : Stack).push (.bool false), session := s } := by
  have hpush : (Code.ofBytecode spin).fetch 0 = .ok (.pushFalse, 1) := by
    rw [Machine.fetch_ofBytecode]
    decide +kernel
  have htest : (Code.ofBytecode spin).fetch 1 = .ok (.jumpIfFalse (-4), 4) := by
    rw [Machine.fetch_ofBytecode]
    decide +kernel
  have htarget : ((4 : Nat) : Int) + -4 = (0 : Nat) := by decide
  have hback := Machine.step_jumpIfFalse (h := {}) (m := ⟨1, ({} : Stack).push (.bool false), [], s⟩)
    htest htarget (Nat.zero_le _) (Stack.values_push {} (.bool false))
  induction n with
  | zero => exact .inl (.none _)
  | succ n ih =>
    rcases ih with hsteps | hsteps
    · exact .inr (hsteps.trans (.one (Machine.step_pushFalse hpush)))
    · exact .inl (hsteps.trans (.one hback))

/-- A program with a conditional jump backwards passes all checks, and its run takes any number
of steps on a budget that is spent. -/
theorem spin_unbounded :
    Bytecode.load spin.image = .ok spin ∧ ∀ n, ∃ m,
      Steps {} (.ofBytecode spin) n (.start spin (.start {} .default (some 0))) m ∧
        m.session.clock = some 0 := by
  refine ⟨Bytecode.load_of_valid ⟨by decide, fun _ hs => (nomatch hs), by decide, by decide⟩ valid_spin,
    fun n => ?_⟩
  rcases steps_spin (.start {} .default (some 0)) n with hsteps | hsteps
  · exact ⟨_, hsteps, rfl⟩
  · exact ⟨_, hsteps, rfl⟩

end Persona
