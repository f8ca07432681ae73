import Persona.Proofs.Evaluation.Call
import Persona.Proofs.Simulation.Statement

/-! Calls.

A call of a function of the program runs the code of its body at its entry, and goes on
behind the call with what is returned. The evaluation has one unit of fuel less inside the
call, and the machine has made one step; so the induction is on the fuel. -/
namespace Persona.Simulation

open Compilation (Surroundings LoopMarked returnCode BodyCode)
open Evaluation (given inFrame_ok inFrame_error)
open Machine (Steps Ends step deliver)

/-! ### Frames -/

/-- Leaves the innermost call with a value. -/
def leaveWith (v : Value) : Eval Value := do
  modify Session.pop
  return v

theorem grows_leaveWith (v : Value) : (leaveWith v).Grows :=
  (Eval.Grows.modify fun _ => .of_eq rfl rfl).bind fun _ => Eval.Grows.pure v

/-- A frame ends with its body, in whatever way that ends. -/
theorem Follows.inFrame {h : Host} {c : Code} {clock : Clock} {k : Nat} {m : Machine} {body : Eval Flow} {s : Session}
    {post : Flow → Session → Machine → Prop} {post' : Value → Session → Machine → Prop}
    (hbody : Follows h c clock k m body s post)
    (hleave : ∀ flow t m', post flow t m' → Follows h c clock k m' (leaveWith (given flow)) t post') :
    Follows h c clock k m (Evaluation.inFrame body) s post' := by
  intro hm
  have hmeets := hbody hm
  cases hr : body s with
  | mk r t =>
    rw [hr] at hmeets
    cases r with
    | ok flow =>
      have hflow : (pure flow : Eval Flow) t = (.ok flow, t) := rfl
      have hframe : Evaluation.inFrame body s = leaveWith (given flow) t := inFrame_ok hr
      have hdone : Meets h c clock k m post ((pure flow : Eval Flow) t) := hmeets
      rw [hframe, ← Effect.bind_ok hflow fun flow => leaveWith (given flow)]
      exact (Follows.bind (fun _ => hdone) (fun _ => grows_leaveWith _) hleave) hm
    | error e =>
      rw [inFrame_error hr]
      cases hmeets with
      | full hend hbefore => exact .full hend (hbefore.trans (.of_eq rfl rfl))
      | fault hend hagrees => exact .fault hend ⟨hagrees.output, hagrees.calls⟩
      | longLiteral hsteps hagrees => exact .longLiteral hsteps ⟨hagrees.output, hagrees.calls⟩
      | spent hclock hsteps hahead hagrees =>
        exact .spent hclock hsteps hahead ⟨hagrees.output, hagrees.calls⟩
      | unfinished hsteps => exact .unfinished hsteps

section
variable {L : Linked} {k off next : Nat} {st : Stack} {frames : List CallFrame} {s u : Session}
  {m : Machine} {discard : Bool}

/-- A return drops what the call has left on the stack. -/
theorem follows_return {stop : Nat} {above : List Value} {below : Stack}
    (hbelow : below.values = above ++ st.values) (hplaced : Placed L.code stop off [.instr .ret]) {v : Value}
    (hpushes : L.Pushes off below (⟨next, st.height, discard⟩ :: frames) v s m) :
    Follows L.host L.code L.clock k m (leaveWith v) s (L.Leaves discard next st frames) := by
  obtain ⟨w, hw, u, htwin, rfl⟩ := hpushes
  have hcut : below.truncate st.height = st := by
    apply Stack.ext_values
    rw [st.height_eq]
    exact Stack.values_truncate hbelow
  have hstep := Machine.step_ret (h := L.host)
    (m := ⟨off, below.push w, ⟨next, st.height, discard⟩ :: frames, u⟩) hplaced.fetch
    (Stack.values_push below w) rfl
  rw [hcut] at hstep
  exact .congr rfl (Linked.follows_deliver (mirrors_pure hw) htwin.pop hstep)

/-- The body of a call comes to its `return`, or to the one behind it. -/
theorem follows_body {whole : Compilation.Code} {entry : Nat}
    (hplaced : ∀ stop, Placed L.code stop entry whole) {y : Eval Flow} {code : Compilation.Code}
    (hwhole : whole = code ++ [.instr .pushNull, .instr .ret])
    (hy : L.Runs k ⟨true, false, none⟩ code y) (htwin : Twin L.pool L.table L.clock s u) :
    Follows L.host L.code L.clock k ⟨entry, st, ⟨next, st.height, discard⟩ :: frames, u⟩ (Evaluation.inFrame y) s
      (L.Leaves discard next st frames) := by
  subst hwhole
  have hplaced := hplaced 0
  have hend := hplaced.right
  have hnoLoop : LoopMarked (· = 0) ⟨true, false, none⟩ entry := fun n hn => by cases hn
  refine (hy hplaced.left rfl hnoLoop (fun hsome => nomatch hsome) htwin).inFrame ?_
  rintro flow s m hgoes
  cases flow with
  | next =>
    obtain ⟨u, htwin, rfl⟩ := hgoes
    refine Linked.follows_push (grows_leaveWith _) htwin (Machine.step_pushNull (m := ⟨_, st, _, u⟩) hend.fetch) ?_
    have hbelow : st.values = [] ++ st.values := rfl
    exact follows_return hbelow hend.tail ⟨.null, .null, u, htwin, rfl⟩
  | leave => exact absurd hgoes.1 (by decide)
  | again => exact absurd hgoes.1 (by decide)
  | giveBack v =>
    obtain ⟨stop, off, above, below, hbelow, hreturn, hpushes⟩ := hgoes
    exact follows_return hbelow hreturn hpushes

/-! ### Calls -/

variable {runBody : List Stmt → Eval Flow} {vs ws : List Value} {stack : Stack}

/-- A call of a function, if the machine runs its body as `runBody` does. -/
theorem follows_applyFunction {g : Function} {entry : Nat} {body : List Stmt}
    (hbody : ∀ {s u : Session}, Twin L.pool L.table L.clock s u →
      Follows L.host L.code L.clock k ⟨entry, st, ⟨next, st.height, discard⟩ :: frames, u⟩
        (Evaluation.inFrame (runBody body)) s (L.Leaves discard next st frames))
    (hentry : g.body = .compiled entry) (hparams : ∀ name ∈ g.params, name ∈ L.pool.bound)
    (hvs : AllAlike L.pool L.table vs ws) (htwin : Twin L.pool L.table L.clock s u)
    (hfetch : L.code.fetch off = .ok (.call ws.length discard, next))
    (hstack : stack.values = ws.reverse ++ .function g :: st.values) :
    Follows L.host L.code L.clock (k + 1) ⟨off, stack, frames, u⟩
      (Evaluation.applyWith L.host runBody (.function { g with body := .script body }) vs) s
      (L.Leaves discard next st frames) := by
  have hlength := hvs.length_eq
  by_cases harity : g.params.length ≠ vs.length
  · have hstep := Machine.step_call_compiled (h := L.host) (m := ⟨off, stack, frames, u⟩) hfetch hstack hentry
    rw [← hlength, if_pos harity] at hstep
    exact .fault (Evaluation.applyWith_arity rfl harity) hstep ⟨htwin.output, htwin.calls⟩
  unfold Evaluation.applyWith
  simp only
  rw [if_neg harity]
  rw [hlength] at harity
  rcases htwin.still with hclock | hclock
  · have hstep := Machine.step_call_function (h := L.host) (m := ⟨off, stack, frames, u⟩) hfetch hstack hentry
      (htwin.clock_eq.trans hclock)
    have hpush := Action.push_apply (htwin.clock_left.trans hclock) L.host
    simp only [if_neg harity] at hstep
    rw [htwin.depth] at hpush
    by_cases hdepth : L.host.limits.maxCallDepth ≤ u.depth
    · rw [if_pos hdepth] at hstep hpush
      exact .fault (Effect.bind_error (Evaluation.act_error hpush) _) hstep ⟨htwin.output, htwin.calls⟩
    rw [if_neg hdepth] at hstep hpush
    refine .congr (Effect.bind_ok (Evaluation.act_ok hpush) _) ?_
    have hinner := hbody (htwin.push.defineAll hparams hvs)
    exact .congr rfl (hinner.after (.one hstep) (by omega))
  · -- neither of them enters the function
    have hstep := Machine.step_call_spent (h := L.host) (m := ⟨off, stack, frames, u⟩) hfetch hstack hentry
      (htwin.clock_eq.trans hclock)
    have hpush := Action.push_spent (htwin.clock_left.trans hclock) L.host
    simp only [if_neg harity] at hstep
    exact .fault (Effect.bind_error (Evaluation.act_error hpush) _) hstep ⟨htwin.output, htwin.calls⟩

theorem applyWith_other {g : Value} (hbuiltin : ∀ b, g ≠ .builtin b) (hfunction : ∀ f, g ≠ .function f) :
    Evaluation.applyWith L.host runBody (g.mapBodies (decompile L.table)) vs s =
      (.error (.fault (.notCallable g.kind)), s) := by
  cases g with
  | builtin b => exact absurd rfl (hbuiltin b)
  | function f => exact absurd rfl (hfunction f)
  | array items => rw [Value.mapBodies_array]; rfl
  | map es => rw [Value.mapBodies_map]; rfl
  | _ => rfl

/-- A call of a value, if the machine runs the bodies of functions as `runBody` does. -/
theorem follows_applyWith
    (hbody : ∀ {entry : Nat} {body : List Stmt} {s u : Session}, (entry, body) ∈ L.table → Twin L.pool L.table L.clock s u →
      Follows L.host L.code L.clock k ⟨entry, st, ⟨next, st.height, discard⟩ :: frames, u⟩
        (Evaluation.inFrame (runBody body)) s (L.Leaves discard next st frames))
    {f g : Value} (hf : Alike L.pool L.table f g) (hvs : AllAlike L.pool L.table vs ws)
    (htwin : Twin L.pool L.table L.clock s u) (hfetch : L.code.fetch off = .ok (.call ws.length discard, next))
    (hstack : stack.values = ws.reverse ++ g :: st.values) :
    Follows L.host L.code L.clock (k + 1) ⟨off, stack, frames, u⟩ (Evaluation.applyWith L.host runBody f vs) s
      (L.Leaves discard next st frames) := by
  obtain ⟨rfl, hknown⟩ := hf
  by_cases hbuiltin : ∃ b, g = .builtin b
  · obtain ⟨b, rfl⟩ := hbuiltin
    exact Linked.follows_deliver (mirrors_call L.host b hvs) htwin
      (Machine.step_call_builtin (m := ⟨off, stack, frames, u⟩) hfetch hstack)
  by_cases hfunction : ∃ f, g = .function f
  · obtain ⟨g, rfl⟩ := hfunction
    obtain ⟨⟨entry, body, hentry, hmem⟩, hparams⟩ := hknown _ (List.mem_singleton_self _)
    rw [Value.mapBodies_function, decompile_eq L.increase hmem hentry]
    exact follows_applyFunction (hbody hmem) hentry hparams hvs htwin hfetch hstack
  · have hbuiltin := fun b hb => hbuiltin ⟨b, hb⟩
    have hfunction := fun f hf => hfunction ⟨f, hf⟩
    exact .fault (applyWith_other hbuiltin hfunction)
      (Machine.step_call_other (m := ⟨off, stack, frames, u⟩) hfetch hstack hbuiltin hfunction)
      ⟨htwin.output, htwin.calls⟩

end

/-- The machine calls values as an evaluation with this much fuel does. -/
theorem performs_call (L : Linked) (fuel : Nat) : Performs L fuel (Evaluation.call L.host fuel) := by
  induction fuel with
  | zero =>
    refine ⟨Evaluation.grows_call 0, fun hf hvs htwin hfetch hstack => ?_⟩
    refine (follows_applyWith (k := 0) (fun _ _ => ?_) hf hvs htwin hfetch hstack).mono (Nat.zero_le 1)
    exact .unfinished rfl
  | succ fuel ih =>
    refine ⟨Evaluation.grows_call (fuel + 1), fun hf hvs htwin hfetch hstack => ?_⟩
    refine follows_applyWith (fun hmem htwin => ?_) hf hvs htwin hfetch hstack
    obtain ⟨whole, hbody, hplaced⟩ := L.body _ _ hmem
    obtain ⟨es, es', code, hrun, hsupplies, hwhole⟩ := hbody.compiled
    exact follows_body hplaced hwhole (runs_block ih _ hbody.covered hrun hsupplies) htwin

end Persona.Simulation
