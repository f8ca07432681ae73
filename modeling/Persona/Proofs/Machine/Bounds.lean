import Persona.Proofs.Machine.Growth
import Persona.Proofs.Machine.Guarded

/-! What a machine holds is bounded, whatever it runs.

The limits on the operand stack, on the calls and on the output are checked where these grow, and
the two stacks of calls, that of the machine and that of the scopes, grow and shrink in the same
steps. So the bounds last, whatever the bytes of the program are. -/
namespace Persona

/-! ### Output -/

namespace Output

theorem fill_le (cs : List Char) (text : String) (room : Nat) :
    (fill text room cs).utf8ByteSize ≤ text.utf8ByteSize + room := by
  induction cs generalizing text room with
  | nil => exact Nat.le_add_right ..
  | cons c cs ih =>
    unfold fill
    split
    · next hfits =>
      have hrest := ih (text.push c) (room - c.utf8Size)
      rw [String.utf8ByteSize_push] at hrest
      omega
    · exact Nat.le_add_right ..

theorem cap_write (o : Output) (s : String) : (o.write s).cap = o.cap := by
  unfold write
  dsimp only
  split
  · rfl
  split
  · rfl
  · rfl

theorem write_le {o : Output} (h : o.text.utf8ByteSize ≤ o.cap) (s : String) :
    (o.write s).text.utf8ByteSize ≤ o.cap := by
  unfold write
  dsimp only
  split
  · exact h
  split
  · rw [String.utf8ByteSize_append]
    omega
  · have hfill := fill_le s.toList o.text (o.cap - o.text.utf8ByteSize)
    dsimp only
    omega

end Output

namespace Machine

/-- Operands, calls and output are within their limits, the scopes are those of the calls and the
global one. -/
structure Bounded (h : Host) (m : Machine) : Prop where
  stack : m.stack.height ≤ h.limits.maxStackSize
  scopes : m.session.scopes ≠ []
  calls : m.frames.length = m.session.depth
  depth : m.session.depth ≤ h.limits.maxCallDepth
  cap : m.session.output.cap = h.limits.maxOutputBytes
  output : m.session.output.text.utf8ByteSize ≤ h.limits.maxOutputBytes

variable {h : Host} {m : Machine}

/-- A session with as many calls and the same output is as good. -/
theorem Bounded.withSession (hm : m.Bounded h) {s : Session} (hdepth : s.depth = m.session.depth)
    (houtput : s.output = m.session.output) : Bounded h { m with session := s } where
  stack := hm.stack
  scopes := Session.scopes_ne_nil _
  calls := hm.calls.trans hdepth.symm
  depth := hdepth ▸ hm.depth
  cap := houtput ▸ hm.cap
  output := houtput ▸ hm.output

theorem Bounded.print (hm : m.Bounded h) (text : String) :
    Bounded h { m with session := m.session.print text } where
  stack := hm.stack
  scopes := Session.scopes_ne_nil _
  calls := hm.calls
  depth := hm.depth
  cap := (Output.cap_write ..).trans hm.cap
  output := by
    have hwrite := Output.write_le (hm.cap ▸ hm.output) text
    rwa [hm.cap] at hwrite

theorem output_assign (s : Session) (name : String) (v : Value) : (s.assign name v).output = s.output := by
  unfold Session.assign
  split
  · rfl
  · exact (s.output_define name v).1

theorem lasting_bounded (h : Host) : Lasting h (Bounded h) where
  stack m stack hstack hm :=
    ⟨Nat.le_trans hstack (Nat.max_le.2 ⟨hm.stack, Nat.le_refl _⟩), hm.scopes, hm.calls, hm.depth, hm.cap,
      hm.output⟩
  session pointer stack frames :=
    { print := fun _ text hm => hm.print text
      call := fun _ _ hm => hm.withSession rfl rfl
      look := fun _ _ hm _ => hm.withSession rfl rfl
      define := fun s name v hm => hm.withSession (s.depth_define name v) (s.output_define name v).1
      assign := fun s name v hm => hm.withSession (s.depth_assign name v) (output_assign s name v)
      profile := fun _ _ hm => hm.withSession rfl rfl
      made := fun _ _ hm => hm.withSession rfl rfl }
  goto _ _ hm := ⟨hm.stack, hm.scopes, hm.calls, hm.depth, hm.cap, hm.output⟩
  enter m f hdepth hm :=
    ⟨hm.stack, Session.scopes_ne_nil _, congrArg (· + 1) hm.calls, hdepth, hm.cap, hm.output⟩
  leave m f rest hframes hm := by
    have hcalls : rest.length = m.session.frames.length - 1 := by
      have hcalls := hm.calls
      rw [hframes, List.length_cons, Session.depth] at hcalls
      omega
    have hpop : m.session.pop.depth = rest.length := by
      rw [hcalls]
      exact List.length_tail
    refine ⟨hm.stack, Session.scopes_ne_nil _, hpop.symm, ?_, hm.cap, hm.output⟩
    have hdepth := hm.depth
    rw [← hm.calls, hframes, List.length_cons] at hdepth
    show m.session.pop.depth ≤ _
    omega

theorem bounded_start (p : Bytecode) (h : Host) (profile : Profile) (clock : Clock) :
    Bounded h (.start p (.start h profile clock)) where
  stack := Nat.zero_le _
  scopes := Session.scopes_ne_nil _
  calls := rfl
  depth := Nat.zero_le _
  cap := rfl
  output := Nat.zero_le _

/-- Whatever a program is, after any number of steps the machine is within its bounds, and all that its
next step takes is there: the step leads on, halts or ends with a fault. -/
theorem run_bounded (p : Bytecode) (h : Host) (profile : Profile) (clock : Clock) (fuel : Nat) :
    Bounded h (run h (.ofBytecode p) fuel (.start p (.start h profile clock))).2 ∧
      guardedStep h p (run h (.ofBytecode p) fuel (.start p (.start h profile clock))).2 =
        some (step h (.ofBytecode p) (run h (.ofBytecode p) fuel (.start p (.start h profile clock))).2) :=
  ⟨kept_run (lasting_bounded h) fuel (bounded_start p h profile clock), congrFun (guardedStep_eq p) _⟩

end Machine

end Persona
