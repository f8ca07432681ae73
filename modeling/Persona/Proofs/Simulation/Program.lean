import Persona.Proofs.Simulation.Call

/-! Programs.

A compiled program runs its personality blocks and then its statements, up to the last
instruction or to a `return` outside of functions. Where its run and the evaluation of the
program end, they have done the same, unless the operand stack of the machine was full. -/
namespace Persona

namespace Simulation

open Compilation (LoopMarked Parts Surroundings Supplies personalityCode returnCode stmts stmt_entries
  supplies_append size size_append size_cons size_nil)
open Machine (Steps Ends step)

/-- The machine is about to halt with what the evaluation has printed and asked. -/
def AboutToHalt (c : Code) (s : Session) (m : Machine) : Prop :=
  (∃ next, c.fetch m.pointer = .ok (.halt, next)) ∧ m.session.Agrees s

section
variable {L : Linked} {k off next : Nat} {st : Stack} {frames : List CallFrame} {s u : Session}

theorem Linked.aboutToHalt (htwin : Twin L.pool L.table L.clock s u) {last : Nat}
    (hfetch : L.code.fetch off = .ok (.halt, last)) : AboutToHalt L.code s ⟨off, st, frames, u⟩ :=
  ⟨⟨last, hfetch⟩, htwin.output, htwin.calls⟩

/-! ### Personality blocks -/

/-- A personality block changes both profiles alike. -/
theorem twin_applyPersonality {pool : Pool} {table : Compilation.Table} {clock : Clock} {s u : Session}
    (htwin : Twin pool table clock s u) (ts : List (Trait × Float)) :
    (Action.applyPersonality ts s).1 = (Action.applyPersonality ts u).1 ∧
      Twin pool table clock (Action.applyPersonality ts s).2 (Action.applyPersonality ts u).2 := by
  have hprofile : s.profile = u.profile := by
    rw [htwin.same]
    rfl
  unfold Action.applyPersonality
  rw [Effect.get_bind_apply, Effect.get_bind_apply, hprofile]
  cases u.profile.applyBlock ts with
  | error e => exact ⟨rfl, htwin⟩
  | ok profile =>
    refine ⟨rfl, ?_, htwin.known, htwin.clock_eq, htwin.still, htwin.within⟩
    rw [htwin.same]
    rfl

theorem follows_applyBlocks {blocks : List (List TraitEntry)}
    (hc : ∀ block ∈ blocks, ∀ e ∈ block, Constant.ofFloat e.value ∈ L.pool.constants)
    {code : Compilation.Code} (h : personalityCode L.pool blocks = .ok code) {stop : Nat}
    (hplaced : Placed L.code stop off code) (hnext : off + size code = next)
    (htwin : Twin L.pool L.table L.clock s u) :
    Follows L.host L.code L.clock k ⟨off, st, frames, u⟩ (Evaluation.applyBlocks blocks) s
      fun _ s m => L.At next st frames s m := by
  induction blocks generalizing code off s u with
  | nil =>
    cases h
    exact .done rfl ⟨u, htwin, by rw [← hnext]; rfl⟩
  | cons block blocks ih =>
    obtain ⟨hblock, hblocks⟩ := List.forall_mem_cons.1 hc
    obtain ⟨-, rest, hrest, rfl⟩ := Compilation.personalityCode_cons h
    rw [size_cons, ← Nat.add_assoc] at hnext
    have hfetch := hplaced.fetch
    have hstep := @Machine.step_personality L.host L.code ⟨off, st, frames, u⟩ _
      (fun x => L.pool.indexOf (.ofFloat x)) (block.map fun e => (e.key, e.value))
      (by rw [List.map_map]; exact hfetch)
      (by rw [List.forall_mem_map]; exact fun e he => Linked.constant_number (hblock e he))
    obtain ⟨hresult, htwin'⟩ := twin_applyPersonality htwin (block.map fun e => (e.key, e.value))
    cases hu : Action.applyPersonality (block.map fun e => (e.key, e.value)) u with
    | mk r u' =>
      cases hs : Action.applyPersonality (block.map fun e => (e.key, e.value)) s with
      | mk r' s' =>
        rw [hu, hs] at hresult htwin'
        rw [hu] at hstep
        cases hresult
        cases r with
        | error e =>
          exact .fault (Effect.bind_error (Evaluation.act_error hs) _) hstep ⟨htwin'.output, htwin'.calls⟩
        | ok _ =>
          refine .congr (Effect.bind_ok (Evaluation.act_ok hs) _) (.step hstep ?_)
          exact ih hblocks hrest hplaced.tail hnext htwin'

/-! ### Statements outside of functions -/

/-- Statements up to a `return`, or to the last instruction behind them. -/
theorem follows_topLevel {call : Caller} (hp : Performs L k call) : ∀ (bs : List Stmt)
    {around : Surroundings} {es es' : List Nat} {code : Compilation.Code} {stop off : Nat} {s u : Session},
      around.inFunction = false → around.sinceLoop = none → L.pool.CoversStmts bs →
      (stmts L.pool around [] bs).run es = .ok (code, es') → Supplies L.table (Stmt.declaredIn bs) es →
      Placed L.code stop off (code ++ [.instr .halt]) → Twin L.pool L.table L.clock s u →
        Follows L.host L.code L.clock k ⟨off, st, frames, u⟩
          (Evaluation.topLevel (Evaluation.stmt L.host call k) bs) s fun _ s m => AboutToHalt L.code s m
  | [], _, _, _, _, _, _, _, _, _, _, _, h, _, hplaced, htwin => by
    obtain ⟨-, rfl⟩ := Compilation.stmts_nil h
    exact .done rfl (Linked.aboutToHalt htwin hplaced.fetch)
  | b :: bs, around, _, _, _, _, off, _, _, hfunction, hnone, hc, h, hsupplies, hplaced, htwin => by
    obtain ⟨first, mid, rest, hb, hbs, rfl⟩ := Compilation.stmts_cons h
    rw [Stmt.declaredIn_cons, supplies_append, ← stmt_entries b hb] at hsupplies
    rw [List.append_assoc] at hplaced
    have hnoLoop : LoopMarked (· = 0) around off := by
      intro n hn
      rw [hnone] at hn
      cases hn
    have hgrows := Evaluation.grows_topLevel (Evaluation.grows_stmt (h := L.host) hp.grows k) bs
    have hmore : ∀ {s m}, L.At (off + size first) st frames s m → Follows L.host L.code L.clock k m
        (Evaluation.topLevel (Evaluation.stmt L.host call k) bs) s fun _ s m => AboutToHalt L.code s m := by
      rintro s m ⟨u, htwin, rfl⟩
      have hfunction : (around.after first).inFunction = false := hfunction
      have hnone : (around.after first).sinceLoop = none := by
        show around.sinceLoop.map _ = none
        rw [hnone]
        rfl
      exact follows_topLevel hp bs hfunction hnone hc.2 hbs hsupplies.2 hplaced.right htwin
    have htime : around.sinceLoop.isSome = true → L.clock = none := by
      rw [hnone]
      exact fun hsome => nomatch hsome
    refine (runs_stmt hp b hc.1 hb hsupplies.1 hplaced.left rfl hnoLoop htime htwin).bind ?_ ?_
    · intro flow
      cases flow with
      | giveBack v => exact Eval.Grows.pure _
      | _ => exact hgrows
    rintro flow s m hgoes
    cases flow with
    | next => exact hmore hgoes
    | leave => exact absurd hgoes.1 (by rw [hnone]; decide)
    | again => exact absurd hgoes.1 (by rw [hnone]; decide)
    | giveBack v =>
      -- the value is dropped, and nothing behind it is run
      obtain ⟨inner, o, above, below, -, hreturn, w, -, u, htwin, rfl⟩ := hgoes
      rw [returnCode, hfunction] at hreturn
      have hstep := Machine.step_pop (h := L.host) (m := ⟨o, below.push w, frames, u⟩) hreturn.fetch
        (Stack.values_push below w)
      exact .step hstep (.done rfl (Linked.aboutToHalt htwin hreturn.tail.fetch))

end

/-! ### Programs -/

section
variable {p : Program} (x : Parts p) (hpool : (Pool.ofProgram p).constants.length < 2 ^ 64)
  (hentry : x.entry < 2 ^ 64) (h : Host) (profile : Profile) {clock : Clock}

include hpool hentry

theorem follows_program (hclock : Still clock) (fuel : Nat) :
    Follows h (.ofBytecode x.bytecode) clock fuel (.start x.bytecode (.start h profile clock))
      (Evaluation.program h fuel p) (.start h profile clock)
      fun _ s m => AboutToHalt (.ofBytecode x.bytecode) s m := by
  let L := Linked.ofParts x hpool hentry h clock
  have hcovers := Pool.covers_ofProgram p
  have hplaced : Placed L.code 0 x.entry (x.setup ++ (x.main ++ [.instr .halt])) := placed_main x hpool hentry 0
  have htwin : Twin L.pool L.table L.clock (.start h profile clock) (.start h profile clock) := by
    refine ⟨rfl, fun g hg => absurd hg List.not_mem_nil, rfl, hclock, fun scope hscope => ?_⟩
    cases List.mem_singleton.1 hscope
    exact fun e he => absurd he List.not_mem_nil
  have hblocks : Follows L.host L.code L.clock fuel ⟨x.entry, {}, [], .start h profile clock⟩
      (Evaluation.applyBlocks p.personalityBlocks) (.start h profile clock)
      fun _ s m => L.At (x.entry + size x.setup) {} [] s m :=
    follows_applyBlocks (Compilation.covers_personalityBlocks hcovers) x.setup_ok hplaced.left rfl htwin
  refine hblocks.bind (fun _ => ?_) ?_
  · exact Evaluation.grows_topLevel (Evaluation.grows_stmt (Evaluation.grows_call fuel) fuel) p.statements
  · rintro _ s m ⟨u, htwin, rfl⟩
    exact follows_topLevel (performs_call L fuel) p.statements rfl rfl hcovers x.main_ok x.supplies
      hplaced.right htwin

end

end Simulation

/-! ### Outcomes -/

theorem Session.Agrees.finish {s t : Session} (h : s.Agrees t) (result : Except Fault Unit) :
    s.finish result = t.finish result := by
  unfold Session.finish
  rw [h.output, h.calls]

namespace Outcome

/-- The first outcome has no more output and no more calls than the second. -/
structure Before (o full : Outcome) : Prop where
  output : ∃ rest, full.output = o.output ++ rest
  calls : o.calls <+: full.calls

/-- The run ended because the operand stack was full. -/
def IsFull (h : Host) (o : Outcome) : Prop :=
  o.ending = .faulted (.limit (.stackSize h.limits.maxStackSize))

end Outcome

theorem Session.Before.finish {s t : Session} (h : s.Before t) (r r' : Except Fault Unit) :
    (s.finish r).Before (t.finish r') := by
  obtain ⟨houtput, later, hcalls⟩ := h
  refine ⟨houtput, later.reverse, ?_⟩
  show s.calls.reverse ++ later.reverse = t.calls.reverse
  rw [hcalls, List.reverse_append]

open Machine (Steps) in
/-- The outcome of a program is that of the machine too, unless the operand stack is full before. Or the
program has stopped where the machine gets to as well: in front of a `while` loop for which there is no time, or
of a literal that is too long. -/
theorem Simulation.Meets.outcome {p : Program} {b : Bytecode} {h : Host} {clock : Clock} {k fuel : Nat} {s : Session}
    (hmeets : Meets h (.ofBytecode b) clock k (.start b s) (fun _ t m => AboutToHalt (.ofBytecode b) t m)
      (Evaluation.program h fuel p s)) {o : Outcome} (ho : p.interpret? h fuel s = some o) :
    (∃ steps o', b.execute? h steps s = some o' ∧ (o' = o ∨ o'.IsFull h ∧ o'.Before o)) ∨
      ∃ n m t result, Steps h (.ofBytecode b) n (.start b s) m ∧ m.session.Agrees t ∧ o = t.finish result ∧
        (clock = some 0 ∧ o.ending = .timedOut h.limits.executionTimeoutMs ∧ LoopAhead (.ofBytecode b) m.pointer ∨
          ∃ size, (Evaluation.program h fuel p s).1 = .error (.longLiteral size) ∧
            o.ending = .faulted (.limit (.arrayLength size h.limits.maxArrayLength))) := by
  unfold Program.interpret? at ho
  cases hr : Evaluation.program h fuel p s with
  | mk r t =>
    rw [hr] at hmeets ho
    cases hmeets with
    | full hend hbefore =>
      obtain ⟨steps, hsteps⟩ := Bytecode.execute?_of_ends hend
      refine .inl ⟨steps, _, hsteps, .inr ⟨rfl, ?_⟩⟩
      cases r with
      | ok _ =>
        cases ho
        exact hbefore.finish _ _
      | error e =>
        obtain ⟨f, -, rfl⟩ := Option.map_eq_some_iff.1 ho
        exact hbefore.finish _ _
    | done hsteps hhalt =>
      obtain ⟨⟨next, hfetch⟩, hagrees⟩ := hhalt
      have hend : Machine.Ends h _ _ (.ok ()) _ := ⟨_, _, hsteps, Machine.step_halt hfetch⟩
      obtain ⟨steps, hsteps⟩ := Bytecode.execute?_of_ends hend
      cases ho
      exact .inl ⟨steps, _, hsteps, .inl (hagrees.finish _)⟩
    | fault hend hagrees =>
      obtain ⟨steps, hsteps⟩ := Bytecode.execute?_of_ends hend
      cases ho
      exact .inl ⟨steps, _, hsteps, .inl (hagrees.finish _)⟩
    | longLiteral hsteps hagrees =>
      cases ho
      exact .inr ⟨_, _, t, _, hsteps, hagrees, rfl, .inr ⟨_, rfl, rfl⟩⟩
    | spent hclock hsteps hahead hagrees =>
      cases ho
      exact .inr ⟨_, _, t, _, hsteps, hagrees, rfl, .inl ⟨hclock, rfl, hahead⟩⟩
    | unfinished _ => cases ho

end Persona
