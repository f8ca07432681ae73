import Persona.Compilation
import Persona.Proofs.Evaluation.Call
import Persona.Proofs.Evaluation.Isolation
import Persona.Proofs.Machine.Lasting

/-! A machine in a call does not touch what is below it.

Where a call returns to stands on top of the calls of the machine, and its scope on top of those of the
session. As long as the first is there, so are the scopes below the second: only a return takes either
of them away, and it takes both. -/
namespace Persona.Machine

open Evaluation (entered)
open Relation (ReflTransGen)

variable {h : Host} {c : Code} {next : Nat} {frame : CallFrame} {calls : List CallFrame} {s : Session} {m m' : Machine}

/-- The call that returns to `frame` has not returned: there is a scope for it on top of those of `s`,
and one for each call that it has made. -/
def IsIn (frame : CallFrame) (calls : List CallFrame) (s : Session) (m : Machine) : Prop :=
  ∃ inner, m.frames = inner ++ frame :: calls ∧ m.session.IsAbove s (inner.length + 1)

/-- The call has returned. -/
structure IsBack (frame : CallFrame) (calls : List CallFrame) (s : Session) (m : Machine) : Prop where
  pointer : m.pointer = frame.returnTo
  calls : m.frames = calls
  scopes : m.session.IsAbove s 0

theorem steady_isIn (h : Host) (frame : CallFrame) (calls : List CallFrame) (s : Session) :
    Steady h (IsIn frame calls s) where
  stack _ _ _ hm := hm
  session _ _ _ :=
    { print := fun _ text ⟨inner, hcalls, ht⟩ => ⟨inner, hcalls, (Session.IsAbove.tame s _).print _ text ht⟩
      call := fun _ call ⟨inner, hcalls, ht⟩ => ⟨inner, hcalls, (Session.IsAbove.tame s _).call _ call ht⟩
      look := fun _ clock ⟨inner, hcalls, ht⟩ hlook =>
        ⟨inner, hcalls, (Session.IsAbove.tame s _).look _ clock ht hlook⟩
      define := fun _ name v ⟨inner, hcalls, ht⟩ => ⟨inner, hcalls, ht.define name v⟩
      assign := fun _ name v ⟨inner, hcalls, ht⟩ => ⟨inner, hcalls, ht.assign name v⟩
      profile := fun _ profile ⟨inner, hcalls, ht⟩ => ⟨inner, hcalls, (Session.IsAbove.tame s _).profile _ profile ht⟩
      made := fun _ made ⟨inner, hcalls, ht⟩ => ⟨inner, hcalls, (Session.IsAbove.tame s _).made _ made ht⟩ }
  goto _ _ hm := hm
  enter _ f _ := fun ⟨inner, hcalls, ht⟩ => ⟨f :: inner, congrArg (f :: ·) hcalls, ht.push⟩

/-! ### Returns -/

theorem exists_stack_pushed (h : Host) (v : Value) (m : Machine) :
    ∃ stack, ((do push h v; return Progress.running) m).2 = { m with stack } := by
  rw [Effect.bind_apply, push_apply]
  by_cases hfull : h.limits.maxStackSize ≤ m.stack.height
  · rw [if_pos hfull]
    exact ⟨m.stack, rfl⟩
  · rw [if_neg hfull]
    exact ⟨_, rfl⟩

/-- Where a return leads, before its value is pushed. -/
theorem ret_cases (h : Host) (m : Machine) :
    (ret h m).2 = (pop m).2 ∨
      ∃ f rest stack, (pop m).2.frames = f :: rest ∧
        (ret h m).2 = ⟨f.returnTo, stack, rest, (pop m).2.session.pop⟩ := by
  unfold ret
  rw [Effect.bind_apply]
  cases hpop : pop m with
  | mk r t =>
    cases r with
    | error e => exact .inl rfl
    | ok v =>
      dsimp only
      rw [Effect.get_bind_apply]
      cases hframes : t.frames with
      | nil => exact .inl rfl
      | cons f rest =>
        refine .inr ?_
        dsimp only
        rw [Effect.modify_bind_apply]
        cases f.discard with
        | true => exact ⟨f, rest, _, rfl, rfl⟩
        | false =>
          obtain ⟨stack, hstack⟩ := exists_stack_pushed h v ⟨f.returnTo, t.stack.truncate f.base, rest, t.session.pop⟩
          exact ⟨f, rest, stack, rfl, hstack⟩

theorem ret_isIn (hm : IsIn frame calls s m) :
    IsIn frame calls s (ret h m).2 ∨ IsBack frame calls s (ret h m).2 := by
  have hpop : IsIn frame calls s (pop m).2 := (kept_pop (steady_isIn h frame calls s).toCalm m hm).1
  rcases ret_cases h m with hret | ⟨f, rest, stack, hframes, hret⟩
  · rw [hret]
    exact .inl hpop
  · obtain ⟨inner, hinner, habove⟩ := hpop
    rw [hret]
    cases inner with
    | nil =>
      cases hframes.symm.trans hinner
      exact .inr ⟨rfl, rfl, habove.pop⟩
    | cons g inner =>
      cases hframes.symm.trans hinner
      exact .inl ⟨inner, rfl, habove.pop⟩

/-! ### Steps -/

/-- A step in a call stays in it, unless it is the return from the call. -/
theorem step_isIn (hm : IsIn frame calls s m) : IsIn frame calls s (step h c m).2 ∨
    (∃ next, c.fetch m.pointer = .ok (.ret, next)) ∧ IsBack frame calls s (step h c m).2 := by
  have hsteady := steady_isIn h frame calls s
  cases hf : c.fetch m.pointer with
  | error e =>
    unfold step
    rw [Effect.get_bind_apply, hf]
    exact .inl hm
  | ok fetched =>
    obtain ⟨i, next⟩ := fetched
    have hgo : IsIn frame calls s { m with pointer := next } := hsteady.goto m next hm
    rw [step_eq hf]
    by_cases hret : i = .ret
    · subst hret
      rcases ret_isIn hgo with hin | hback
      · exact .inl hin
      · exact .inr ⟨⟨next, rfl⟩, hback⟩
    · exact .inl (kept_onward hsteady hret _ hgo).1

/-- A call of a function that goes on has entered it. -/
theorem exists_entered {g : Function} {vs : List Value} {discard : Bool} {t : Stack}
    (hf : c.fetch m.pointer = .ok (.call vs.length discard, next))
    (hs : m.stack.values = vs.reverse ++ .function g :: t.values) (hstep : step h c m = (.ok .running, m')) :
    ∃ entry clock, m' = ⟨entry, t, ⟨next, t.height, discard⟩ :: m.frames, entered g vs clock m.session⟩ := by
  cases hbody : g.body with
  | script body =>
    rw [step_call_script hf hs hbody] at hstep
    cases hstep
  | compiled entry =>
    rw [step_call_compiled hf hs hbody] at hstep
    by_cases harity : g.params.length ≠ vs.length
    · rw [if_pos harity] at hstep
      cases hstep
    rw [if_neg harity] at hstep
    cases hlook : m.session.clock.look? with
    | none =>
      rw [hlook] at hstep
      cases hstep
    | some clock =>
      simp only [hlook] at hstep
      by_cases hdepth : h.limits.maxCallDepth ≤ m.session.depth
      · rw [if_pos hdepth] at hstep
        cases hstep
      · rw [if_neg hdepth] at hstep
        cases hstep
        exact ⟨entry, clock, rfl⟩

/-! ### Calls -/

/-- The machines of a call from the one in which it begins: more calls are open than before it. -/
inductive During (h : Host) (c : Code) (before : Nat) (m : Machine) : Machine → Prop
  | begins : During h c before m m
  | goesOn {a b} : During h c before m a → step h c a = (.ok .running, b) → before < b.frames.length →
    During h c before m b

theorem isIn_of_during (hm : IsIn frame calls s m) (hduring : During h c calls.length m m') :
    IsIn frame calls s m' := by
  induction hduring with
  | begins => exact hm
  | @goesOn a b _ hstep hopen ih =>
    have hcases := step_isIn (h := h) (c := c) ih
    rw [hstep] at hcases
    rcases hcases with hin | ⟨-, hback⟩
    · exact hin
    · rw [hback.calls] at hopen
      exact absurd hopen (Nat.lt_irrefl _)

theorem isIn_of_entered {g : Function} {vs : List Value} {entry : Nat} {stack : Stack} {clock : Clock} :
    IsIn frame m.frames m.session ⟨entry, stack, frame :: m.frames, entered g vs clock m.session⟩ := by
  have hlooked : Session.IsAbove { m.session with clock } m.session 0 :=
    (Session.IsAbove.refl m.session).of_frames_eq rfl
  exact ⟨[], rfl, hlooked.enter (g.params.zip vs)⟩

end Persona.Machine

namespace Persona

open Evaluation (Moment)
open Machine (During IsIn step)
open Relation (ReflTransGen)

/-- Calls are isolated. A call in the interpreter leaves the scopes and the depth of calls that it finds,
whether it gives a value or faults; at every moment of it, and after each, the scopes that it found are
there, and on top of them one for each call that has not returned. Where a machine calls a function, the
scopes that it has are there, below that of the call and those of deeper calls, after every step up to the
one that takes the call away; that step is the return behind it, to the calls, the scopes and the depth
of before. -/
theorem call_isolated (h : Host) :
    (∀ (fuel : Nat) (calls : List Function) (f : Value) (vs : List Value) (s : Session),
      (Evaluation.call h fuel f vs s).2.frames = s.frames ∧ (Evaluation.call h fuel f vs s).2.depth = s.depth ∧
      ∀ m, ReflTransGen (Moment.Leads h) ⟨fuel, calls, .apply f vs, s⟩ m →
        ∃ inner, m.calls = inner ++ calls ∧ m.session.IsAbove s inner.length ∧ (m.after h).IsAbove s inner.length) ∧
    ∀ (c : Code) (m begun : Machine) (g : Function) (vs : List Value) (t : Stack) (next : Nat) (discard : Bool),
      c.fetch m.pointer = .ok (.call vs.length discard, next) →
      m.stack.values = vs.reverse ++ .function g :: t.values →
      step h c m = (.ok .running, begun) →
      ∀ a, During h c m.frames.length begun a →
        IsIn ⟨next, t.height, discard⟩ m.frames m.session a ∧
        ∀ r b, step h c a = (r, b) →
          (m.frames.length < b.frames.length → IsIn ⟨next, t.height, discard⟩ m.frames m.session b) ∧
          (b.frames.length ≤ m.frames.length →
            (∃ behind, c.fetch a.pointer = .ok (.ret, behind)) ∧ b.pointer = next ∧ b.frames = m.frames ∧
              b.session.frames = m.session.frames ∧ b.session.depth = m.session.depth) := by
  refine ⟨fun fuel calls f vs s => ?_, fun c m begun g vs t next discard hf hs hstep a hduring => ?_⟩
  · have hframes := Evaluation.frames_call h fuel f vs s
    exact ⟨hframes, congrArg List.length hframes, fun m hm => Evaluation.isAbove_of_leads hm⟩
  · obtain ⟨entry, clock, rfl⟩ := Machine.exists_entered hf hs hstep
    have hin := Machine.isIn_of_during Machine.isIn_of_entered hduring
    refine ⟨hin, fun r b hb => ?_⟩
    have hcases := Machine.step_isIn (h := h) (c := c) hin
    rw [hb] at hcases
    rcases hcases with hstays | ⟨hret, hback⟩
    · refine ⟨fun _ => hstays, fun hle => ?_⟩
      obtain ⟨inner, hcalls, -⟩ := hstays
      rw [hcalls, List.length_append, List.length_cons] at hle
      omega
    · refine ⟨fun hlt => ?_, fun _ => ⟨hret, hback.pointer, hback.calls, hback.scopes.frames_eq, ?_⟩⟩
      · rw [hback.calls] at hlt
        exact absurd hlt (Nat.lt_irrefl _)
      · rw [hback.scopes.depth_eq, Nat.zero_add]

/-- What it is called with is given back. -/
def relayBody : List Stmt := [.giveBack .start (some (.identifier ⟨"a", .start⟩))]

/-- A function, and one with a variable of the same name that calls it. -/
def relay : Program :=
  ⟨[.function ⟨.start, "g", [⟨"a", none⟩], none, relayBody⟩,
    .function ⟨.start, "f", [⟨"a", none⟩], none,
      [.giveBack .start (some (.call .start (.identifier ⟨"g", .start⟩) [.literal (.bool true)]))]⟩,
    .expr .start (.call .start (.identifier ⟨"f", .start⟩) [.literal .null])]⟩

def relayCode : Bytecode :=
  ⟨[.string "g", .string "a", .string "f"], [129, 10, 2, 10, 128, 3, 49, 10, 2, 10, 18, 0, 1, 1, 0, 192, 18, 2, 1,
    1, 4, 194, 130, 2, 57, 0], 10⟩

theorem compile_relay : compile relay = .ok relayCode := by decide +kernel

theorem fetch_relay : (Code.ofBytecode relayCode).fetch 6 = .ok (.call 1 false, 7) ∧
    (Code.ofBytecode relayCode).fetch 0 = .ok (.loadVar 1, 1) ∧
    (Code.ofBytecode relayCode).fetch 1 = .ok (.ret, 2) := by
  simp only [Machine.fetch_ofBytecode]
  decide +kernel

/-- The function of `relay` that is called last. -/
def relayed (body : FunctionBody) : Function := ⟨⟨0, "g"⟩, ["a"], body⟩

/-- The session in the call of the other. -/
def relaying (body : FunctionBody) : Session :=
  { Session.start {} .default none with globals := [("g", .function (relayed body))], frames := [[("a", .null)]] }

/-- The machine in which the call of the one in the other is next. -/
def relayMachine : Machine :=
  let m := Machine.start relayCode (relaying (.compiled 0))
  { m with
    pointer := 6
    stack := (m.stack.push (.function (relayed (.compiled 0)))).push (.bool true)
    frames := [⟨25, 0, true⟩] }

/-- The machine in which it has begun. -/
def relayBegun : Machine :=
  { Machine.start relayCode (Evaluation.entered (relayed (.compiled 0)) [.bool true] none (relaying (.compiled 0))) with
    pointer := 0
    frames := [⟨7, 0, false⟩, ⟨25, 0, true⟩] }

/-- The machine in which its return is next. -/
def relayLoaded : Machine := { relayBegun with pointer := 1, stack := relayBegun.stack.push (.bool true) }

theorem values_relay : relayMachine.stack.values =
    [Value.bool true].reverse ++ .function (relayed (.compiled 0)) :: relayBegun.stack.values := rfl

theorem steps_relay : step {} (.ofBytecode relayCode) relayMachine = (.ok .running, relayBegun) ∧
    step {} (.ofBytecode relayCode) relayBegun = (.ok .running, relayLoaded) := by
  have hname : (Code.ofBytecode relayCode).constant? 1 = some (.string "a") := rfl
  constructor
  · exact (Machine.step_call_compiled fetch_relay.1 values_relay rfl).trans rfl
  · exact (Machine.step_loadVar fetch_relay.2.1 hname).trans rfl

/-- Both ways of running `relay` have the variable of the caller below that of the callee, and the machine
returns to it. -/
theorem call_isolated_relay :
    (∃ m, ReflTransGen (Moment.Leads {})
        ⟨1, [], .apply (.function (relayed (.script relayBody))) [.bool true], relaying (.script relayBody)⟩ m ∧
      m.task = .block relayBody ∧ m.session.IsAbove (relaying (.script relayBody)) 1) ∧
    compile relay = .ok relayCode ∧ IsIn ⟨7, 0, false⟩ relayMachine.frames relayMachine.session relayLoaded ∧
      ∃ b, step {} (.ofBytecode relayCode) relayLoaded = (.ok .running, b) ∧ b.session.frames = [[("a", .null)]] := by
  obtain ⟨hcallee, hmachine⟩ := call_isolated {}
  refine ⟨?_, compile_relay, ?_⟩
  · have hpush : Action.push {} (relaying (.script relayBody)) =
        (.ok (), { relaying (.script relayBody) with frames := [[], [("a", .null)]] }) := rfl
    have hleads : ReflTransGen (Moment.Leads {})
        ⟨1, [], .apply (.function (relayed (.script relayBody))) [.bool true], relaying (.script relayBody)⟩ _ :=
      .single (.enter rfl rfl hpush)
    obtain ⟨inner, hcalls, habove, -⟩ := (hcallee 1 [] _ _ _).2.2 _ hleads
    rw [List.append_nil] at hcalls
    subst hcalls
    exact ⟨_, hleads, rfl, habove⟩
  · have hduring : During {} (.ofBytecode relayCode) 1 relayBegun relayLoaded :=
      .goesOn .begins steps_relay.2 (by decide)
    obtain ⟨hin, hsteps⟩ :=
      hmachine _ relayMachine _ _ _ _ _ _ fetch_relay.1 values_relay steps_relay.1 _ hduring
    have hreturned := (Machine.step_ret (h := {}) (m := relayLoaded) fetch_relay.2.2 rfl rfl).trans rfl
    exact ⟨hin, _, hreturned, ((hsteps _ _ hreturned).2 (by decide)).2.2.2.1⟩

end Persona
