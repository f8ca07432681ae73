import Persona.Proofs.Compilation.Validity
import Persona.Proofs.Decimal.Exact
import Persona.Proofs.Machine.Safety
import Persona.Proofs.Simulation.Follows
import Persona.Proofs.Simulation.Twin

/-! Compiled code where a machine finds it.

A code is *placed* at an offset if the machine fetches its pieces there. A program is
*linked* into a machine's code if the bodies of its functions are placed at their
entries and its constants have their indices. -/
namespace Persona.Simulation

open Compilation (Each Piece size Table each_append size_append size_cons BodyCode Filled Parts)
open Machine (Steps step deliver)

/-! ### Placed code -/

/-- What the machine fetches where a piece stands; a gap is a jump to `stop`. -/
def Fetches (c : Code) (stop o : Nat) : Piece → Prop
  | .instr i => c.fetch o = .ok (i, o + i.size)
  | .exit => stop ≤ c.length ∧ ∃ d : Int, c.fetch o = .ok (.jump d, o + 3) ∧ (o + 3 : Nat) + d = stop

/-- The machine fetches a code from an offset on. -/
structure Placed (c : Code) (stop off : Nat) (code : Compilation.Code) : Prop where
  end_le : off + size code ≤ c.length
  each : Each (Fetches c stop) off code

namespace Placed

variable {c : Code} {stop off : Nat} {xs ys : Compilation.Code} {i : Instruction}

theorem left (h : Placed c stop off (xs ++ ys)) : Placed c stop off xs := by
  obtain ⟨hend, heach⟩ := h
  rw [size_append] at hend
  exact ⟨by omega, (each_append.1 heach).1⟩

theorem right (h : Placed c stop off (xs ++ ys)) : Placed c stop (off + size xs) ys := by
  obtain ⟨hend, heach⟩ := h
  rw [size_append] at hend
  exact ⟨by omega, (each_append.1 heach).2⟩

theorem fetch (h : Placed c stop off (.instr i :: xs)) : c.fetch off = .ok (i, off + i.size) := h.each.1

theorem fetch_at {o next : Nat} (h : Placed c stop off (.instr i :: xs)) (ho : off = o)
    (hnext : off + i.size = next) : c.fetch o = .ok (i, next) := by
  rw [← ho, ← hnext]
  exact h.fetch

theorem tail (h : Placed c stop off (.instr i :: xs)) : Placed c stop (off + i.size) xs := by
  obtain ⟨hend, heach⟩ := h
  rw [size_cons, Compilation.Piece.size_instr] at hend
  exact ⟨by omega, heach.2⟩

/-- The pieces of a loop's body, whose gaps lead to `stop`. -/
theorem of_filled {inner : Nat} (h : Placed c inner off ys) (hfilled : Filled stop off xs ys)
    (hstop : stop ≤ c.length) (hsize : size ys = size xs) : Placed c stop off xs := by
  obtain ⟨hend, heach⟩ := h
  refine ⟨by omega, hfilled.each_code heach (fun _ _ hi => hi) fun o d hd hi => ?_⟩
  exact ⟨hstop, d, hi, hd⟩

end Placed

/-- Encoded instructions are fetched from where their bytes are. -/
theorem placed_encoded {p : Bytecode} {is : List Instruction} (his : ∀ i ∈ is, i.Encodable)
    (front back : List UInt8) (hcode : p.code = front ++ (is.flatMap Instruction.encode ++ back))
    (stop : Nat) : Placed (.ofBytecode p) stop front.length (is.map .instr) := by
  induction is generalizing front with
  | nil =>
    refine ⟨?_, trivial⟩
    show front.length + 0 ≤ p.code.length
    rw [hcode, List.length_append]
    omega
  | cons i is ih =>
    obtain ⟨hi, his⟩ := List.forall_mem_cons.1 his
    rw [List.flatMap_cons, List.append_assoc] at hcode
    have hmoved : p.code = (front ++ i.encode) ++ (is.flatMap Instruction.encode ++ back) := by
      rw [hcode, List.append_assoc]
    have hrest := ih his _ hmoved
    rw [List.length_append] at hrest
    refine ⟨?_, ?_, hrest.each⟩
    · have hend := hrest.end_le
      rw [List.map_cons, size_cons]
      show front.length + (i.encode.length + _) ≤ _
      omega
    · show (Code.ofBytecode p).fetch _ = _
      rw [Machine.fetch_ofBytecode, hcode]
      exact Instruction.decodeAt_encode hi front _

/-! ### Linked programs -/

/-- The pool and the bodies of a program in the code of a machine, and the clock of its runs. -/
structure Linked where
  host : Host
  clock : Clock
  pool : Pool
  table : Table
  code : Code
  constant : ∀ k ∈ pool.constants, code.constant? (pool.indexOf k) = some k.value
  increase : table.Pairwise fun x y => x.1 < y.1
  body : ∀ entry ss, (entry, ss) ∈ table →
    ∃ whole, BodyCode pool table ss whole ∧ ∀ stop, Placed code stop entry whole

namespace Linked

variable {L : Linked}

theorem constant_string {s : String} (hs : Constant.string s ∈ L.pool.constants) :
    L.code.constant? (L.pool.indexOf (.string s)) = some (.string s) := L.constant _ hs

theorem constant_number {x : Float} (hx : Constant.ofFloat x ∈ L.pool.constants) :
    L.code.constant? (L.pool.indexOf (.ofFloat x)) = some (.number x) := by
  rw [L.constant _ hx]
  show some (Value.number (Float.ofBits x.toBits)) = _
  rw [Decimal.ofBits_toBits]

/-! ### Places of the machine -/

/-- The machine stands at an offset, with these operands and callers and the twin of this
session. -/
def At (L : Linked) (off : Nat) (st : Stack) (frames : List CallFrame) (s : Session) (m : Machine) : Prop :=
  ∃ u, Twin L.pool L.table L.clock s u ∧ m = ⟨off, st, frames, u⟩

/-- A value lies on top of the operands. -/
def Pushes (L : Linked) (off : Nat) (st : Stack) (frames : List CallFrame) (v : Value) (s : Session)
    (m : Machine) : Prop :=
  ∃ w, Alike L.pool L.table v w ∧ L.At off (st.push w) frames s m

/-- A value lies on top of the operands, or is dropped. -/
def Leaves (L : Linked) (discard : Bool) (off : Nat) (st : Stack) (frames : List CallFrame) (v : Value)
    (s : Session) (m : Machine) : Prop :=
  match discard with
  | true => L.At off st frames s m
  | false => L.Pushes off st frames v s m

variable {k next : Nat} {st : Stack} {frames : List CallFrame} {s u : Session} {m : Machine}
  {a b : Action Value} {discard : Bool}

/-- An action of the machine, whose result is pushed, follows the one it mirrors. -/
theorem follows_deliver (hab : Mirrors L.pool L.table a b) (htwin : Twin L.pool L.table L.clock s u)
    (hstep : step L.host L.code m = deliver L.host b discard ⟨next, st, frames, u⟩) :
    Follows L.host L.code L.clock k m (Evaluation.act a) s (L.Leaves discard next st frames) := by
  obtain ⟨hsession, hresult, hknown⟩ := hab L.clock s u htwin
  cases hb : b u with
  | mk r u' =>
    rw [hb] at hsession hresult hknown
    cases ha : a s with
    | mk r' s' =>
      rw [ha] at hsession hresult
      cases r with
      | error e =>
        cases hresult
        have herror := Machine.deliver_error (m := ⟨next, st, frames, u⟩) hb discard (h := L.host)
        rw [← hstep] at herror
        exact .fault (Evaluation.act_error ha) herror ⟨hsession.output, hsession.calls⟩
      | ok w =>
        cases hresult
        have hact := Evaluation.act_ok ha
        have hw : Alike L.pool L.table _ w := ⟨rfl, hknown w rfl⟩
        cases discard with
        | true =>
          have hrun := Machine.deliver_dropped (m := ⟨next, st, frames, u⟩) hb (h := L.host)
          rw [← hstep] at hrun
          exact .step hrun (.done hact ⟨u', hsession, rfl⟩)
        | false =>
          have hrun := Machine.deliver_ok (m := ⟨next, st, frames, u⟩) hb (h := L.host)
          rw [← hstep] at hrun
          by_cases hfull : L.host.limits.maxStackSize ≤ st.height
          · rw [if_pos hfull] at hrun
            refine .full hrun ?_
            rw [hact]
            exact .of_eq hsession.output.symm hsession.calls.symm
          · rw [if_neg hfull] at hrun
            exact .step hrun (.done hact ⟨w, hw, u', hsession, rfl⟩)

/-- A value that the evaluation knows nothing of is pushed. -/
theorem follows_push {α : Type} {x : Eval α} {post : α → Session → Machine → Prop} {w : Value}
    (hgrows : x.Grows) (htwin : Twin L.pool L.table L.clock s u)
    (hstep : step L.host L.code m = deliver L.host (pure w) false ⟨next, st, frames, u⟩)
    (hx : Follows L.host L.code L.clock k ⟨next, st.push w, frames, u⟩ x s post) :
    Follows L.host L.code L.clock k m x s post := by
  have hrun := Machine.deliver_ok (a := pure w) (m := ⟨next, st, frames, u⟩) rfl (h := L.host)
  rw [← hstep] at hrun
  by_cases hfull : L.host.limits.maxStackSize ≤ st.height
  · rw [if_pos hfull] at hrun
    refine .full hrun (Session.Before.trans ?_ (hgrows s))
    exact .of_eq htwin.output.symm htwin.calls.symm
  · rw [if_neg hfull] at hrun
    exact .step hrun hx

/-- A jump that no clock stops; it is a step that counts. -/
theorem follows_jump {α : Type} {x : Eval α} {post : α → Session → Machine → Prop} {off target : Nat}
    {d : Int} (hfetch : L.code.fetch off = .ok (.jump d, next)) (htarget : (next : Int) + d = target)
    (hle : target ≤ L.code.length) (hclock : 0 ≤ d ∨ L.clock = none)
    (htwin : Twin L.pool L.table L.clock s u) (hx : Follows L.host L.code L.clock k ⟨target, st, frames, u⟩ x s post) :
    Follows L.host L.code L.clock (1 + k) ⟨off, st, frames, u⟩ x s post :=
  have hclock := hclock.imp_right htwin.clock_eq.trans
  hx.after (.one (Machine.step_jump hfetch htarget hle hclock)) (Nat.le_refl _)

/-- A jump that depends on a value; it is a step that counts. -/
theorem follows_test {α : Type} {x : Eval α} {post : α → Session → Machine → Prop} {off target : Nat}
    {d : Int} {v w : Value} (hv : Alike L.pool L.table v w)
    (hfetch : L.code.fetch off = .ok (.jumpIfFalse d, next)) (htarget : (next : Int) + d = target)
    (hle : target ≤ L.code.length)
    (hyes : v.isTruthy = true → Follows L.host L.code L.clock k ⟨next, st, frames, u⟩ x s post)
    (hno : v.isTruthy = false → Follows L.host L.code L.clock k ⟨target, st, frames, u⟩ x s post) :
    Follows L.host L.code L.clock (1 + k) ⟨off, st.push w, frames, u⟩ x s post := by
  have hstep := Machine.step_jumpIfFalse (h := L.host) (m := ⟨off, st.push w, frames, u⟩) hfetch htarget
    hle (Stack.values_push st w)
  rw [← hv.isTruthy] at hstep
  cases htruthy : v.isTruthy with
  | true =>
    rw [htruthy] at hstep
    exact (hyes htruthy).after (.one hstep) (Nat.le_refl _)
  | false =>
    rw [htruthy] at hstep
    exact (hno htruthy).after (.one hstep) (Nat.le_refl _)

/-- The code computes what the evaluation does, wherever it is placed, and pushes it. -/
def Computes (L : Linked) (k : Nat) (code : Compilation.Code) (x : Eval Value) : Prop :=
  ∀ ⦃stop off next : Nat⦄ ⦃st : Stack⦄ ⦃frames : List CallFrame⦄ ⦃s u : Session⦄,
    Placed L.code stop off code → off + size code = next → Twin L.pool L.table L.clock s u →
      Follows L.host L.code L.clock k ⟨off, st, frames, u⟩ x s (L.Pushes next st frames)

end Linked

/-! ### Compiled programs -/

section
variable {p : Program} (x : Parts p) (hpool : (Pool.ofProgram p).constants.length < 2 ^ 64)
  (hentry : x.entry < 2 ^ 64)

include hpool hentry

theorem placed_whole (stop : Nat) : Placed (.ofBytecode x.bytecode) stop 0 x.whole := by
  obtain ⟨is, his, hencodable, hcode⟩ := x.exists_encodable hpool hentry
  rw [his]
  refine placed_encoded hencodable [] [] ?_ stop
  rw [hcode, List.nil_append, List.append_nil]

theorem placed_body {entry : Nat} {ss : List Stmt} (hmem : (entry, ss) ∈ x.table) :
    ∃ whole, BodyCode (Pool.ofProgram p) x.table ss whole ∧
      ∀ stop, Placed (.ofBytecode x.bytecode) stop entry whole := by
  obtain ⟨front, whole, back, hcodes, hoff, hbody⟩ := x.laid.code_at hmem
  rw [Nat.zero_add] at hoff
  refine ⟨whole, hbody, fun stop => ?_⟩
  have hplaced := placed_whole x hpool hentry stop
  rw [Parts.whole, hcodes] at hplaced
  have hwhole := hplaced.left.right.left
  rwa [Nat.zero_add, hoff] at hwhole

/-- What runs first, and the statements behind it. -/
theorem placed_main (stop : Nat) :
    Placed (.ofBytecode x.bytecode) stop x.entry (x.setup ++ (x.main ++ [.instr .halt])) := by
  have hplaced := placed_whole x hpool hentry stop
  rw [Parts.whole] at hplaced
  have hmain := hplaced.right
  rwa [Nat.zero_add] at hmain

/-- The parts of a compiled program, linked. -/
def Linked.ofParts (h : Host) (clock : Clock) : Linked where
  host := h
  clock := clock
  pool := Pool.ofProgram p
  table := x.table
  code := .ofBytecode x.bytecode
  constant k hk := by
    rw [Machine.constant?_ofBytecode]
    show ((Pool.ofProgram p).constants[_]?).map _ = _
    rw [Pool.getElem?_indexOf hk]
    rfl
  increase := x.laid.entries_increase
  body _ _ := placed_body x hpool hentry

end

end Persona.Simulation
