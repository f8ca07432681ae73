import Persona.Proofs.Machine.Safety

/-! The machine step by step.

What a step does is said for every instruction as an equation, given what the
instruction finds on the stack. Steps are put one behind the other, and a run is steps
and an end. -/
namespace Persona.Machine

variable {h : Host} {c : Code}

/-! ### Runs -/

/-- A number of steps after each of which the run goes on. -/
inductive Steps (h : Host) (c : Code) : Nat → Machine → Machine → Prop
  | none (m : Machine) : Steps h c 0 m m
  | more {n : Nat} {m m' m'' : Machine} :
    step h c m = (.ok .running, m') → Steps h c n m' m'' → Steps h c (n + 1) m m''

namespace Steps

variable {n k : Nat} {a b d : Machine}

theorem one (hstep : step h c a = (.ok .running, b)) : Steps h c 1 a b := .more hstep (.none b)

theorem trans (hab : Steps h c n a b) (hbd : Steps h c k b d) : Steps h c (n + k) a d := by
  induction hab with
  | none m => rwa [Nat.zero_add]
  | more hstep _ ih =>
    rw [Nat.add_right_comm]
    exact .more hstep (ih hbd)

/-- The first steps of some. -/
theorem take (hab : Steps h c n a b) (hk : k ≤ n) : ∃ m, Steps h c k a m := by
  induction hab generalizing k with
  | none m =>
    obtain rfl : k = 0 := by omega
    exact ⟨m, .none m⟩
  | more hstep _ ih =>
    cases k with
    | zero => exact ⟨_, .none _⟩
    | succ k =>
      obtain ⟨m, hm⟩ := ih (by omega : k ≤ _)
      exact ⟨m, .more hstep hm⟩

theorem run_eq (hab : Steps h c n a b) (fuel : Nat) : run h c (n + fuel) a = run h c fuel b := by
  induction hab with
  | none m => rw [Nat.zero_add]
  | more hstep _ ih =>
    rw [Nat.add_right_comm, run, hstep]
    exact ih

end Steps

/-- The run ends after some steps, with this result and this machine. -/
def Ends (h : Host) (c : Code) (m : Machine) (r : Except Fault Unit) (m' : Machine) : Prop :=
  ∃ n k, Steps h c n m k ∧ step h c k = (r.map fun _ => .halted, m')

theorem Steps.ends {n : Nat} {a b m' : Machine} {r : Except Fault Unit} (hab : Steps h c n a b)
    (hb : Ends h c b r m') : Ends h c a r m' := by
  obtain ⟨k, d, hsteps, hend⟩ := hb
  exact ⟨n + k, d, hab.trans hsteps, hend⟩

/-- The end of a run is also the end of what is left of it after some steps. -/
theorem Steps.ends_rest {n : Nat} {a b m' : Machine} {r : Except Fault Unit} (hab : Steps h c n a b)
    (ha : Ends h c a r m') : Ends h c b r m' := by
  induction hab with
  | none m => exact ha
  | more hstep _ ih =>
    obtain ⟨k, d, hsteps, hend⟩ := ha
    cases hsteps with
    | none =>
      rw [hstep] at hend
      cases r with
      | error e => cases hend
      | ok u => cases hend
    | more hstep' hrest =>
      cases hstep.symm.trans hstep'
      exact ih ⟨_, d, hrest, hend⟩

theorem Ends.run_eq {m m' : Machine} {r : Except Fault Unit} (hm : Ends h c m r m') :
    ∃ n, ∀ fuel, run h c (n + (fuel + 1)) m = (some r, m') := by
  obtain ⟨n, k, hsteps, hend⟩ := hm
  refine ⟨n, fun fuel => ?_⟩
  rw [hsteps.run_eq, run, hend]
  cases r with
  | error e => rfl
  | ok u => rfl

/-- A run that has ended has taken steps to its last machine. -/
theorem ends_of_run {m m' : Machine} {r : Except Fault Unit} {fuel : Nat}
    (hm : run h c fuel m = (some r, m')) : Ends h c m r m' := by
  induction fuel generalizing m with
  | zero => cases hm
  | succ fuel ih =>
    unfold run at hm
    cases hstep : step h c m with
    | mk res m1 =>
      rw [hstep] at hm
      cases res with
      | error e =>
        cases hm
        exact ⟨0, m, .none m, hstep⟩
      | ok progress =>
        cases progress with
        | running => exact (Steps.one hstep).ends (ih hm)
        | halted =>
          cases hm
          exact ⟨0, m, .none m, hstep⟩

/-- A run that wants more fuel has taken as many steps as there was. -/
theorem steps_of_run {m m' : Machine} {fuel : Nat} (hm : run h c fuel m = (none, m')) :
    Steps h c fuel m m' := by
  induction fuel generalizing m with
  | zero =>
    cases hm
    exact .none _
  | succ fuel ih =>
    unfold run at hm
    cases hstep : step h c m with
    | mk r m1 =>
      rw [hstep] at hm
      cases r with
      | error e => cases hm
      | ok progress =>
        cases progress with
        | running => exact .more hstep (ih hm)
        | halted => cases hm

section
variable {p : Bytecode} {is : List (Nat × Instruction)} {n : Nat} {m m' : Machine}

theorem Intact.start (hv : p.Valid is) (h : Host) (profile : Profile) (clock : Clock) :
    (Machine.start p (.start h profile clock)).Intact p is where
  pointer := .inl hv.entry
  returns _ hf := absurd hf List.not_mem_nil
  stack _ hw := absurd hw List.not_mem_nil
  session := Session.holds_start h profile clock

theorem Intact.step (hv : p.Valid is) (hm : m.Intact p is)
    (hstep : step h (.ofBytecode p) m = (.ok .running, m')) : m'.Intact p is := by
  have hsafe := (safe_step (h := h) hv m hm).1
  rwa [hstep] at hsafe

theorem Intact.steps (hv : p.Valid is) (hm : m.Intact p is) (hsteps : Steps h (.ofBytecode p) n m m') :
    m'.Intact p is := by
  induction hsteps with
  | none m => exact hm
  | more hstep _ ih => exact ih (hm.step hv hstep)

end

/-! ### Parts of instructions -/

variable {m : Machine}

theorem push_apply (v : Value) (m : Machine) :
    push h v m = if h.limits.maxStackSize ≤ m.stack.height then
      (.error (.limit (.stackSize h.limits.maxStackSize)), m)
    else (.ok (), { m with stack := m.stack.push v }) := by
  unfold push
  rw [Effect.get_bind_apply]
  by_cases hfull : h.limits.maxStackSize ≤ m.stack.height
  · simp only [hfull, if_true]
    rfl
  · simp only [hfull, if_false]
    rfl

theorem pop_apply {v : Value} {s t : Stack} (hs : s.values = v :: t.values) (pointer : Nat)
    (frames : List CallFrame) (session : Session) :
    pop ⟨pointer, s, frames, session⟩ = (.ok v, ⟨pointer, t, frames, session⟩) := by
  unfold pop
  rw [Effect.get_bind_apply, Stack.pop?_eq_some hs]
  rfl

theorem popMany_apply {vs : List Value} {s t : Stack} (hs : s.values = vs.reverse ++ t.values)
    (pointer : Nat) (frames : List CallFrame) (session : Session) :
    popMany vs.length ⟨pointer, s, frames, session⟩ = (.ok vs, ⟨pointer, t, frames, session⟩) := by
  unfold popMany
  rw [Effect.get_bind_apply, Stack.popMany?_eq_some hs]
  rfl

/-- A call takes its arguments off the stack, and then what it calls. -/
theorem popCallee_apply {v : Value} {vs : List Value} {s t : Stack} (hs : s.values = vs.reverse ++ v :: t.values)
    (k : List Value → Value → Exec α) (pointer : Nat) (frames : List CallFrame) (session : Session) :
    (do let vs ← popMany vs.length; k vs (← pop)) ⟨pointer, s, frames, session⟩ =
      k vs v ⟨pointer, t, frames, session⟩ := by
  have hfirst : s.values = vs.reverse ++ (t.push v).values := hs
  rw [Effect.bind_ok (popMany_apply hfirst ..), Effect.bind_ok (pop_apply (Stack.values_push t v) ..)]

theorem act_apply (a : Action α) (m : Machine) :
    act a m = ((a m.session).1, { m with session := (a m.session).2 }) := rfl

theorem act_checkBudget (hclock : m.session.clock = none) :
    act (Action.checkBudget h) m = (.ok (), m) := by
  rw [act_apply, Action.checkBudget_apply hclock]

theorem act_checkBudget_spent (hclock : m.session.clock = some 0) :
    act (Action.checkBudget h) m = (.error (.timeout h.limits.executionTimeoutMs), m) := by
  rw [act_apply, Action.checkBudget_spent hclock]

theorem constant_apply {idx : Nat} {v : Value} (hc : c.constant? idx = some v) (m : Machine) :
    constant c idx m = (.ok v, m) := by
  unfold constant
  rw [hc]
  rfl

theorem name_apply {idx : Nat} {s : String} (hc : c.constant? idx = some (.string s)) (m : Machine) :
    name c idx m = (.ok s, m) := by
  unfold name
  rw [hc]
  rfl

theorem names_apply {idx : String → Nat} {ps : List String}
    (hc : ∀ p ∈ ps, c.constant? (idx p) = some (.string p)) (m : Machine) :
    names c (ps.map idx) m = (.ok ps, m) := by
  induction ps with
  | nil => rfl
  | cons p ps ih =>
    obtain ⟨hp, hps⟩ := List.forall_mem_cons.1 hc
    rw [List.map_cons, names, Effect.bind_ok (name_apply hp m), Effect.bind_ok (ih hps)]
    rfl

theorem traitValues_apply {idx : Float → Nat} {ts : List (Trait × Float)}
    (hc : ∀ e ∈ ts, c.constant? (idx e.2) = some (.number e.2)) (m : Machine) :
    traitValues c (ts.map fun e => (e.1, idx e.2)) m = (.ok ts, m) := by
  induction ts with
  | nil => rfl
  | cons e ts ih =>
    obtain ⟨he, hts⟩ := List.forall_mem_cons.1 hc
    rw [List.map_cons, traitValues, Effect.bind_ok (constant_apply he m)]
    simp only
    rw [Effect.bind_ok (ih hts)]
    rfl

theorem jump_apply {next target : Nat} {d : Int} (htarget : (next : Int) + d = target)
    (hle : target ≤ c.length) (m : Machine) :
    jump c next d m = (.ok (), { m with pointer := target }) := by
  unfold jump Instruction.jumpTarget?
  rw [htarget]
  simp only [hle, if_true]
  rfl

/-- An action whose result is pushed, unless it is dropped. -/
def deliver (h : Host) (a : Action Value) (discard : Bool) : Exec Progress := do
  let v ← act a
  unless discard do push h v
  return .running

/-- A call goes on with the next instruction when it has left its result. -/
theorem deliver_eq (a : Action Value) (discard : Bool) (m : Machine) :
    ((do let v ← act a; unless discard do push h v) >>= fun _ => pure Progress.running : Exec Progress) m =
      deliver h a discard m := by
  unfold deliver
  rw [Effect.bind_apply, Effect.bind_apply, Effect.bind_apply]
  cases act a m with
  | mk r m' =>
    cases r with
    | error e => rfl
    | ok v =>
      cases discard with
      | true => rfl
      | false => exact (Effect.bind_apply (push h v) _ m').symm

theorem deliver_ok {a : Action Value} {v : Value} {s : Session} (ha : a m.session = (.ok v, s)) :
    deliver h a false m = if h.limits.maxStackSize ≤ m.stack.height then
      (.error (.limit (.stackSize h.limits.maxStackSize)), { m with session := s })
    else (.ok .running, { m with session := s, stack := m.stack.push v }) := by
  have hact : act a m = (.ok v, { m with session := s }) := by rw [act_apply, ha]
  unfold deliver
  rw [Effect.bind_ok hact]
  show ((push h v) >>= fun _ => pure Progress.running) _ = _
  rw [Effect.bind_apply, push_apply]
  by_cases hfull : h.limits.maxStackSize ≤ m.stack.height
  · simp only [hfull, if_true]
  · simp only [hfull, if_false]
    rfl

theorem deliver_dropped {a : Action Value} {v : Value} {s : Session} (ha : a m.session = (.ok v, s)) :
    deliver h a true m = (.ok .running, { m with session := s }) := by
  have hact : act a m = (.ok v, { m with session := s }) := by rw [act_apply, ha]
  unfold deliver
  rw [Effect.bind_ok hact]
  rfl

theorem deliver_error {a : Action Value} {e : Fault} {s : Session} (ha : a m.session = (.error e, s))
    (discard : Bool) : deliver h a discard m = (.error e, { m with session := s }) := by
  have hact : act a m = (.error e, { m with session := s }) := by rw [act_apply, ha]
  unfold deliver
  rw [Effect.bind_error hact]

/-! ### Steps -/

theorem step_eq {i : Instruction} {next : Nat} (hf : c.fetch m.pointer = .ok (i, next)) :
    step h c m = execute h c next i { m with pointer := next } := by
  unfold step
  rw [Effect.get_bind_apply, hf]
  rfl

section
variable {next : Nat}

theorem step_halt (hf : c.fetch m.pointer = .ok (.halt, next)) :
    step h c m = (.ok .halted, { m with pointer := next }) := step_eq hf

theorem step_pushConst {idx : Nat} {v : Value} (hf : c.fetch m.pointer = .ok (.pushConst idx, next))
    (hc : c.constant? idx = some v) :
    step h c m = deliver h (pure v) false { m with pointer := next } := by
  rw [step_eq hf]
  unfold execute
  simp only
  rw [Effect.bind_ok (constant_apply hc _)]
  rfl

theorem step_pushNull (hf : c.fetch m.pointer = .ok (.pushNull, next)) :
    step h c m = deliver h (pure .null) false { m with pointer := next } := step_eq hf

theorem step_pushTrue (hf : c.fetch m.pointer = .ok (.pushTrue, next)) :
    step h c m = deliver h (pure (.bool true)) false { m with pointer := next } := step_eq hf

theorem step_pushFalse (hf : c.fetch m.pointer = .ok (.pushFalse, next)) :
    step h c m = deliver h (pure (.bool false)) false { m with pointer := next } := step_eq hf

theorem step_loadBuiltin {b : Builtin} (hf : c.fetch m.pointer = .ok (.loadBuiltin b, next)) :
    step h c m = deliver h (pure (.builtin b)) false { m with pointer := next } := step_eq hf

theorem step_pop {v : Value} {t : Stack} (hf : c.fetch m.pointer = .ok (.pop, next))
    (hs : m.stack.values = v :: t.values) :
    step h c m = (.ok .running, { m with pointer := next, stack := t }) := by
  rw [step_eq hf]
  unfold execute
  simp only
  rw [Effect.bind_ok (pop_apply hs ..)]
  rfl

theorem step_loadVar {idx : Nat} {name : String} (hf : c.fetch m.pointer = .ok (.loadVar idx, next))
    (hc : c.constant? idx = some (.string name)) :
    step h c m = deliver h (Action.lookup name) false { m with pointer := next } := by
  rw [step_eq hf]
  unfold execute
  simp only
  rw [Effect.bind_ok (name_apply hc _)]
  rfl

theorem step_storeVar {idx : Nat} {name : String} {v : Value} {rest : List Value}
    (hf : c.fetch m.pointer = .ok (.storeVar idx, next))
    (hc : c.constant? idx = some (.string name)) (hs : m.stack.values = v :: rest) :
    step h c m =
      (.ok .running, { m with pointer := next, session := m.session.assign name v }) := by
  rw [step_eq hf]
  unfold execute
  simp only
  rw [Effect.bind_ok (name_apply hc _), Effect.get_bind_apply, hs]
  rfl

theorem step_defineVar {idx : Nat} {name : String} {v : Value} {t : Stack}
    (hf : c.fetch m.pointer = .ok (.defineVar idx, next))
    (hc : c.constant? idx = some (.string name)) (hs : m.stack.values = v :: t.values) :
    step h c m =
      (.ok .running, { m with pointer := next, stack := t, session := m.session.define name v }) := by
  rw [step_eq hf]
  unfold execute
  simp only
  rw [Effect.bind_ok (name_apply hc _), Effect.bind_ok (pop_apply hs ..)]
  rfl

/-- A jump forward does not look at the clock, and without a budget no jump has to. -/
theorem step_jump {d : Int} {target : Nat} (hf : c.fetch m.pointer = .ok (.jump d, next))
    (htarget : (next : Int) + d = target) (hle : target ≤ c.length)
    (hclock : 0 ≤ d ∨ m.session.clock = none) :
    step h c m = (.ok .running, { m with pointer := target }) := by
  rw [step_eq hf]
  unfold execute
  simp only
  split
  · next hback =>
    have hclock := hclock.resolve_left (Int.not_le.2 hback)
    have hlook := act_checkBudget (h := h) (m := { m with pointer := next }) hclock
    rw [Effect.bind_ok hlook, Effect.bind_ok (jump_apply htarget hle _)]
    rfl
  · rw [Effect.bind_ok (jump_apply htarget hle _)]
    rfl

theorem step_jumpIfFalse {d : Int} {target : Nat} {v : Value} {t : Stack}
    (hf : c.fetch m.pointer = .ok (.jumpIfFalse d, next))
    (htarget : (next : Int) + d = target) (hle : target ≤ c.length)
    (hs : m.stack.values = v :: t.values) :
    step h c m =
      (.ok .running, { m with pointer := if v.isTruthy then next else target, stack := t }) := by
  rw [step_eq hf]
  unfold execute
  simp only
  rw [Effect.bind_ok (pop_apply hs ..)]
  cases v.isTruthy with
  | true => rfl
  | false =>
    show ((jump c next d) >>= fun _ => pure Progress.running) _ = _
    rw [Effect.bind_ok (jump_apply htarget hle _)]
    rfl

theorem step_binOp {op : BinaryOp} {a b : Value} {t : Stack}
    (hf : c.fetch m.pointer = .ok (.binOp op, next)) (hs : m.stack.values = b :: a :: t.values) :
    step h c m = deliver h (Action.orFault (Value.binary h.limits op a b)) false
      { m with pointer := next, stack := t } := by
  have hfirst : m.stack.values = b :: (t.push a).values := hs
  rw [step_eq hf]
  unfold execute
  simp only
  rw [Effect.bind_ok (pop_apply hfirst ..), Effect.bind_ok (pop_apply (Stack.values_push t a) ..)]
  rfl

theorem step_unOp {op : UnaryOp} {v : Value} {t : Stack}
    (hf : c.fetch m.pointer = .ok (.unOp op, next)) (hs : m.stack.values = v :: t.values) :
    step h c m = deliver h (Action.orFault (Value.unary op v)) false
      { m with pointer := next, stack := t } := by
  rw [step_eq hf]
  unfold execute
  simp only
  rw [Effect.bind_ok (pop_apply hs ..)]
  rfl

theorem step_index {object key : Value} {t : Stack} (hf : c.fetch m.pointer = .ok (.index, next))
    (hs : m.stack.values = key :: object :: t.values) :
    step h c m = deliver h (Action.orFault (Value.index object key)) false
      { m with pointer := next, stack := t } := by
  have hfirst : m.stack.values = key :: (t.push object).values := hs
  rw [step_eq hf]
  unfold execute
  simp only
  rw [Effect.bind_ok (pop_apply hfirst ..), Effect.bind_ok (pop_apply (Stack.values_push t object) ..)]
  rfl

theorem step_makeArray {vs : List Value} {t : Stack}
    (hf : c.fetch m.pointer = .ok (.makeArray vs.length, next))
    (hle : vs.length ≤ h.limits.maxArrayLength) (hs : m.stack.values = vs.reverse ++ t.values) :
    step h c m = deliver h (pure (.array vs.toArray)) false
      { m with pointer := next, stack := t } := by
  have hcheck : Value.checkArrayLength vs.length h.limits = .ok () := by
    rw [Value.checkArrayLength, if_neg (Nat.not_lt.2 hle)]
  rw [step_eq hf]
  unfold execute
  simp only
  rw [hcheck]
  show (popMany vs.length >>= _) _ = _
  rw [Effect.bind_ok (popMany_apply hs ..)]
  rfl

theorem step_makeMap {vs : List Value} {count : Nat} {t : Stack}
    (hf : c.fetch m.pointer = .ok (.makeMap count, next)) (hcount : 2 * count = vs.length)
    (hs : m.stack.values = vs.reverse ++ t.values) :
    step h c m = deliver h (Action.orFault (mapOf [] vs)) false
      { m with pointer := next, stack := t } := by
  rw [step_eq hf]
  unfold execute
  simp only
  rw [hcount, Effect.bind_ok (popMany_apply hs ..)]
  rfl

theorem step_extend {head tail : Value} {t : Stack} (hf : c.fetch m.pointer = .ok (.extend, next))
    (hs : m.stack.values = tail :: head :: t.values) :
    step h c m = deliver h (Action.orFault (Value.extend h.limits head tail)) false
      { m with pointer := next, stack := t } := by
  have hfirst : m.stack.values = tail :: (t.push head).values := hs
  rw [step_eq hf]
  unfold execute
  simp only
  rw [Effect.bind_ok (pop_apply hfirst ..), Effect.bind_ok (pop_apply (Stack.values_push t head) ..)]
  rfl

theorem step_call_builtin {b : Builtin} {vs : List Value} {discard : Bool} {t : Stack}
    (hf : c.fetch m.pointer = .ok (.call vs.length discard, next))
    (hs : m.stack.values = vs.reverse ++ .builtin b :: t.values) :
    step h c m = deliver h (b.call h vs) discard { m with pointer := next, stack := t } := by
  rw [step_eq hf]
  unfold execute call
  simp only
  rw [Effect.bind_apply, popCallee_apply hs]
  exact (Effect.bind_apply ..).symm.trans (deliver_eq (b.call h vs) discard _)

theorem step_call_other {v : Value} {vs : List Value} {discard : Bool} {t : Stack}
    (hf : c.fetch m.pointer = .ok (.call vs.length discard, next))
    (hs : m.stack.values = vs.reverse ++ v :: t.values)
    (hbuiltin : ∀ b, v ≠ .builtin b) (hfunction : ∀ g, v ≠ .function g) :
    step h c m = (.error (.notCallable v.kind), { m with pointer := next, stack := t }) := by
  rw [step_eq hf]
  unfold execute call
  simp only
  rw [Effect.bind_apply, popCallee_apply hs]
  cases v with
  | builtin b => exact absurd rfl (hbuiltin b)
  | function g => exact absurd rfl (hfunction g)
  | _ => rfl

/-- The machine does not run functions that have no place in the code. -/
theorem step_call_script {g : Function} {body : List Stmt} {vs : List Value} {discard : Bool} {t : Stack}
    (hf : c.fetch m.pointer = .ok (.call vs.length discard, next))
    (hs : m.stack.values = vs.reverse ++ .function g :: t.values) (hbody : g.body = .script body) :
    step h c m = (.error (.code (.noCompiledBody g.id.name)), { m with pointer := next, stack := t }) := by
  rw [step_eq hf]
  unfold execute call
  simp only
  rw [Effect.bind_apply, popCallee_apply hs]
  simp only [hbody]
  rfl

/-- A call of a compiled function looks at the clock and enters it, unless it has other parameters
than there are arguments or the calls are nested too deep. -/
theorem step_call_compiled {g : Function} {entry : Nat} {vs : List Value} {discard : Bool} {t : Stack}
    (hf : c.fetch m.pointer = .ok (.call vs.length discard, next))
    (hs : m.stack.values = vs.reverse ++ .function g :: t.values) (hbody : g.body = .compiled entry) :
    step h c m =
      if g.params.length ≠ vs.length then
        (.error (.arityMismatch g.id.name (.exactly g.params.length) vs.length),
          { m with pointer := next, stack := t })
      else match m.session.clock.look? with
        | some clock => if h.limits.maxCallDepth ≤ m.session.depth then
            (.error (.stackOverflow h.limits.maxCallDepth), ⟨next, t, m.frames, { m.session with clock }⟩)
          else (.ok .running, ⟨entry, t, ⟨next, t.height, discard⟩ :: m.frames,
            Session.defineAll { m.session with clock, frames := [] :: m.session.frames } (g.params.zip vs)⟩)
        | none => (.error (.timeout h.limits.executionTimeoutMs), { m with pointer := next, stack := t }) := by
  rw [step_eq hf]
  unfold execute call
  simp only
  rw [Effect.bind_apply, popCallee_apply hs]
  simp only
  rw [hbody]
  simp only
  by_cases harity : g.params.length ≠ vs.length
  · rw [if_pos harity, if_pos harity]
    rfl
  rw [if_neg harity, if_neg harity]
  have hact := act_apply (Action.push h) ⟨next, t, m.frames, m.session⟩
  rw [Action.push_eq] at hact
  cases hlook : m.session.clock.look? with
  | none =>
    simp only [hlook] at hact
    rw [Effect.bind_error hact]
  | some clock =>
    simp only [hlook] at hact ⊢
    by_cases hdepth : h.limits.maxCallDepth ≤ m.session.depth
    · rw [if_pos hdepth] at hact ⊢
      rw [Effect.bind_error hact]
    · rw [if_neg hdepth] at hact ⊢
      rw [Effect.bind_ok hact]
      rfl

/-- Without a budget a call does not depend on the clock. -/
theorem step_call_function {g : Function} {entry : Nat} {vs : List Value} {discard : Bool} {t : Stack}
    (hf : c.fetch m.pointer = .ok (.call vs.length discard, next))
    (hs : m.stack.values = vs.reverse ++ .function g :: t.values) (hbody : g.body = .compiled entry)
    (hclock : m.session.clock = none) :
    step h c m =
      if g.params.length ≠ vs.length then
        (.error (.arityMismatch g.id.name (.exactly g.params.length) vs.length),
          { m with pointer := next, stack := t })
      else if h.limits.maxCallDepth ≤ m.session.depth then
        (.error (.stackOverflow h.limits.maxCallDepth), { m with pointer := next, stack := t })
      else (.ok .running, ⟨entry, t, ⟨next, t.height, discard⟩ :: m.frames,
        { m.session with frames := [] :: m.session.frames }.defineAll (g.params.zip vs)⟩) := by
  obtain ⟨pointer, stack, frames, globals, scopes, profile, output, clock, calls, made⟩ := m
  subst hclock
  exact step_call_compiled hf hs hbody

/-- On a spent budget no call enters a function. -/
theorem step_call_spent {g : Function} {entry : Nat} {vs : List Value} {discard : Bool} {t : Stack}
    (hf : c.fetch m.pointer = .ok (.call vs.length discard, next))
    (hs : m.stack.values = vs.reverse ++ .function g :: t.values) (hbody : g.body = .compiled entry)
    (hclock : m.session.clock = some 0) :
    step h c m =
      if g.params.length ≠ vs.length then
        (.error (.arityMismatch g.id.name (.exactly g.params.length) vs.length),
          { m with pointer := next, stack := t })
      else (.error (.timeout h.limits.executionTimeoutMs), { m with pointer := next, stack := t }) := by
  rw [step_call_compiled hf hs hbody, hclock]
  rfl

theorem step_ret {f : CallFrame} {rest : List CallFrame} {v : Value} {t : Stack}
    (hf : c.fetch m.pointer = .ok (.ret, next)) (hs : m.stack.values = v :: t.values)
    (hframes : m.frames = f :: rest) :
    step h c m =
      deliver h (pure v) f.discard ⟨f.returnTo, t.truncate f.base, rest, m.session.pop⟩ := by
  rw [step_eq hf]
  unfold execute ret
  simp only
  rw [Effect.bind_ok (pop_apply hs ..), Effect.get_bind_apply]
  simp only [hframes]
  rfl

theorem step_makeFunction {idx : String → Nat} {name : String} {ps : List String} {entry : Nat}
    (hf : c.fetch m.pointer = .ok (.makeFunction (idx name) (ps.map idx) entry, next))
    (hname : c.constant? (idx name) = some (.string name))
    (hps : ∀ p ∈ ps, c.constant? (idx p) = some (.string p)) :
    step h c m = deliver h (Action.makeFunction name ps (.compiled entry)) false
      { m with pointer := next } := by
  rw [step_eq hf]
  unfold execute
  simp only
  rw [Effect.bind_ok (name_apply hname _), Effect.bind_ok (names_apply hps _)]
  rfl

theorem step_iterInit {v : Value} {t : Stack} (hf : c.fetch m.pointer = .ok (.iterInit, next))
    (hs : m.stack.values = v :: t.values) :
    step h c m = match v.items with
      | .error e => (.error e, { m with pointer := next, stack := t })
      | .ok items => (push h (.array items) >>= fun _ => deliver h (pure (.number 0.0)) false)
        { m with pointer := next, stack := t } := by
  rw [step_eq hf]
  unfold execute
  simp only
  rw [Effect.bind_ok (pop_apply hs ..)]
  cases v.items with
  | error e => rfl
  | ok items => rfl

theorem step_forNext_item {d : Int} {x : Float} {items : Array Value} {item : Value} {t : Stack}
    (hf : c.fetch m.pointer = .ok (.forNext d, next))
    (hs : m.stack.values = .number x :: .array items :: t.values)
    (hitem : items[Decimal.toWord x]? = some item) (hclock : m.session.clock = none) :
    step h c m = deliver h (pure item) false { m with
      pointer := next
      stack := (t.push (.array items)).push (.number (Decimal.toWord x + 1).toFloat) } := by
  have hdrop : m.stack.drop 1 = t.push (.array items) := by
    apply Stack.ext_values
    rw [Stack.values_drop, hs]
    rfl
  have hlook := act_checkBudget (h := h) (m := { m with pointer := next }) hclock
  rw [step_eq hf]
  unfold execute forNext
  simp only
  rw [Effect.bind_apply, Effect.get_bind_apply, hs]
  simp only [iterator?, hitem]
  rw [Effect.bind_ok hlook, Effect.modify_bind_apply, hdrop]
  unfold deliver
  rw [← Effect.bind_apply]
  rfl

/-- On a spent budget no round of a `for` begins. -/
theorem step_forNext_spent {d : Int} {x : Float} {items : Array Value} {item : Value} {t : Stack}
    (hf : c.fetch m.pointer = .ok (.forNext d, next))
    (hs : m.stack.values = .number x :: .array items :: t.values)
    (hitem : items[Decimal.toWord x]? = some item) (hclock : m.session.clock = some 0) :
    step h c m = (.error (.timeout h.limits.executionTimeoutMs), { m with pointer := next }) := by
  have hlook := act_checkBudget_spent (h := h) (m := { m with pointer := next }) hclock
  rw [step_eq hf]
  unfold execute forNext
  simp only
  rw [Effect.bind_apply, Effect.get_bind_apply, hs]
  simp only [iterator?, hitem]
  rw [Effect.bind_error hlook]

theorem step_forNext_end {d : Int} {x : Float} {items : Array Value} {target : Nat} {t : Stack}
    (hf : c.fetch m.pointer = .ok (.forNext d, next))
    (hs : m.stack.values = .number x :: .array items :: t.values)
    (hitem : items[Decimal.toWord x]? = none) (htarget : (next : Int) + d = target)
    (hle : target ≤ c.length) :
    step h c m = (.ok .running, { m with pointer := target, stack := t }) := by
  have hdrop : m.stack.drop 2 = t := by
    apply Stack.ext_values
    rw [Stack.values_drop, hs]
    rfl
  rw [step_eq hf]
  unfold execute forNext
  simp only
  rw [Effect.bind_apply, Effect.get_bind_apply, hs]
  simp only [iterator?, hitem]
  rw [Effect.modify_bind_apply, hdrop, jump_apply htarget hle]
  rfl

theorem step_personality {idx : Float → Nat} {ts : List (Trait × Float)}
    (hf : c.fetch m.pointer = .ok (.personality (ts.map fun e => (e.1, idx e.2)), next))
    (hc : ∀ e ∈ ts, c.constant? (idx e.2) = some (.number e.2)) :
    step h c m = ((Action.applyPersonality ts m.session).1.map fun _ => .running,
      { m with pointer := next, session := (Action.applyPersonality ts m.session).2 }) := by
  rw [step_eq hf]
  unfold execute
  simp only
  rw [Effect.bind_ok (traitValues_apply hc _), Effect.bind_apply, act_apply]
  cases Action.applyPersonality ts m.session with
  | mk r s =>
    cases r with
    | error e => rfl
    | ok u => rfl

end

end Persona.Machine

/-! ### Outcomes -/

namespace Persona.Bytecode

open Machine (Steps Ends)

variable {h : Host} {b : Bytecode} {s : Session} {m : Machine} {result : Except Fault Unit}

/-- The outcome of a run, if it has ended. -/
def outcome? : Option (Except Fault Unit) × Machine → Option Outcome
  | (some result, m) => some (m.session.finish result)
  | (none, _) => none

theorem execute?_eq (h : Host) (fuel : Nat) (b : Bytecode) (s : Session) :
    b.execute? h fuel s = outcome? (Machine.run h (.ofBytecode b) fuel (.start b s)) := rfl

theorem execute?_of_ends (hm : Ends h (.ofBytecode b) (.start b s) result m) :
    ∃ fuel, b.execute? h fuel s = some (m.session.finish result) := by
  obtain ⟨n, hrun⟩ := hm.run_eq
  refine ⟨n + (0 + 1), ?_⟩
  rw [execute?_eq, hrun]
  rfl

/-- An outcome comes from the end of a run. -/
theorem ends_of_execute? {fuel : Nat} {o : Outcome} (ho : b.execute? h fuel s = some o) :
    ∃ result m, Ends h (.ofBytecode b) (.start b s) result m ∧ o = m.session.finish result := by
  rw [execute?_eq] at ho
  cases hrun : Machine.run h (.ofBytecode b) fuel (.start b s) with
  | mk r m =>
    rw [hrun] at ho
    cases r with
    | none => cases ho
    | some result =>
      cases ho
      exact ⟨result, m, Machine.ends_of_run hrun, rfl⟩

end Persona.Bytecode
