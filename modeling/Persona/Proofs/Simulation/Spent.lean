import Persona.Proofs.Machine.Compiled
import Persona.Proofs.Machine.Growth
import Persona.Proofs.Simulation.Program

/-! Programs without time.

Where every look at the clock finds the budget spent, a program runs up to the first look. Both
ways of running it look before an item of a `for` and before the body of a function, so that
they stop in the same place there. But at a `while` loop the program looks before the first
test, and the compiled program only when it jumps back behind the first round. -/
namespace Persona

open Machine (Steps)
open Simulation (LoopAhead)

/-- Where the run of the program has ended, that of the compiled program has got to as well,
with the same output and calls: to a `while` loop that the program has no time for, or to an
array literal that is too long for it. -/
structure Outcome.Overrun (h : Host) (b : Bytecode) (s : Session) (o : Outcome) (m : Machine) : Prop where
  reached : ∃ n, Steps h (.ofBytecode b) n (.start b s) m
  output : m.session.output.text = o.output
  calls : m.session.calls.reverse = o.calls
  stop : o.ending = .timedOut h.limits.executionTimeoutMs ∧ LoopAhead (.ofBytecode b) m.pointer ∨
    ∃ size, o.ending = .faulted (.limit (.arrayLength size h.limits.maxArrayLength))

/-- From where a run has got to, its outcome only grows. -/
theorem overrun {h : Host} {b : Bytecode} {s t : Session} {n steps : Nat} {m : Machine} {o : Outcome}
    {result : Except Fault Unit} (hsteps : Steps h (.ofBytecode b) n (.start b s) m)
    (hagrees : m.session.Agrees t) (ho : b.execute? h steps s = some o)
    (hstop : (t.finish result).ending = .timedOut h.limits.executionTimeoutMs ∧
        LoopAhead (.ofBytecode b) m.pointer ∨
      ∃ size, (t.finish result).ending = .faulted (.limit (.arrayLength size h.limits.maxArrayLength))) :
    (t.finish result).Before o ∧ ∃ m, (t.finish result).Overrun h b s m := by
  obtain ⟨r, m', hend, rfl⟩ := Bytecode.ends_of_execute? ho
  have hbefore := (hsteps.ends_rest hend).before
  refine ⟨((Session.Before.of_eq hagrees.output hagrees.calls).trans hbefore).finish _ _, m, ⟨n, hsteps⟩, ?_, ?_, hstop⟩
  · rw [hagrees.output]
    rfl
  · rw [hagrees.calls]
    rfl

/-- On a spent budget a program and what it is compiled to come to the same outcome, unless the
operand stack is full before, or the program stops in front of a `while` loop or an array
literal where the compiled program does not. -/
theorem compile_faithful_spent {p : Program} {b : Bytecode} (hcompile : compile p = .ok b) (hb : b.Addressable)
    (h : Host) (profile : Profile) :
    ∃ q, Bytecode.load b.image = .ok q ∧
      ∃ fuel o steps o', p.interpret? h fuel (.start h profile (some 0)) = some o ∧
        q.execute? h steps (.start h profile (some 0)) = some o' ∧
        (o' = o ∨ o'.IsFull h ∧ o'.Before o ∨
          o.Before o' ∧ ∃ m, o.Overrun h q (.start h profile (some 0)) m) := by
  have hload := load_image_of_compile hcompile hb
  obtain ⟨x, rfl⟩ := Compilation.exists_parts hcompile
  have hentry : x.entry < 2 ^ 62 := hb.entry
  have hmeets := Simulation.follows_program x hb.constants (by omega) h profile (.inr rfl) 1
    fun hclock => nomatch hclock
  obtain ⟨o, ho⟩ := p.exists_interpret h profile Nat.zero_lt_one
  obtain ⟨steps, o', ho', hsame⟩ | ⟨n, m, t, result, hsteps, hagrees, rfl, hstop⟩ := hmeets.outcome ho
  · exact ⟨_, hload, 1, o, steps, o', ho, ho', hsame.imp_right .inl⟩
  · obtain ⟨t, hchart⟩ := x.exists_chart
    obtain ⟨steps, o', ho'⟩ := (x.valid hb.constants (by omega)).exists_execute hchart.isForward h profile 0
    refine ⟨_, hload, 1, _, steps, o', ho, ho', .inr (.inr (overrun hsteps hagrees ho' ?_))⟩
    exact hstop.imp And.right fun ⟨size, _, hending⟩ => ⟨size, hending⟩

/-- A loop that is left in its first round, which prints. -/
def printOnce : Program :=
  ⟨[.whileLoop .start (.literal (.bool true))
    [.expr .start (.call .start (.identifier ⟨"print", .start⟩) [.literal (.string "a")]), .leave .start]]⟩

def printOnceCode : Bytecode := ⟨[.string "a"], [3, 12, 9, 0, 32, 64, 57, 11, 3, 0, 11, 243, 255, 0], 0⟩

theorem compile_printOnce : compile printOnce = .ok printOnceCode := by decide +kernel

theorem addressable_printOnceCode : printOnceCode.Addressable := by
  refine ⟨by decide, fun s hs => ?_, by decide, by decide⟩
  cases List.mem_singleton.1 hs
  decide

/-- A run may take no time. -/
def timeless : Host := { limits := { executionTimeoutMs := 0 } }

theorem compile_faithful_spent_printOnce :
    compile printOnce = .ok printOnceCode ∧ printOnceCode.Addressable ∧
      ∃ q, Bytecode.load printOnceCode.image = .ok q ∧
        ∃ fuel o steps o', printOnce.interpret? timeless fuel (.start timeless .default (some 0)) = some o ∧
          q.execute? timeless steps (.start timeless .default (some 0)) = some o' ∧
          (o' = o ∨ o'.IsFull timeless ∧ o'.Before o ∨
            o.Before o' ∧ ∃ m, o.Overrun timeless q (.start timeless .default (some 0)) m) :=
  ⟨compile_printOnce, addressable_printOnceCode,
    compile_faithful_spent compile_printOnce addressable_printOnceCode timeless .default⟩

/-- No time is left, but the compiled program runs its first round. -/
theorem spent_printOnce :
    printOnce.interpret? timeless 1 (.start timeless .default (some 0)) = some ⟨.timedOut 0, "", false, []⟩ ∧
      compile printOnce = .ok printOnceCode ∧
      printOnceCode.execute? timeless 7 (.start timeless .default (some 0)) = some ⟨.halted, "a\n", false, []⟩ :=
  ⟨rfl, compile_printOnce, rfl⟩

end Persona
