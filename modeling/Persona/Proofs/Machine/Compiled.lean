import Persona.Proofs.Compilation.Balance
import Persona.Proofs.Evaluation.Budget
import Persona.Proofs.Machine.Budget
import Persona.Proofs.Machine.Slots
import Persona.Proofs.Simulation.Placement

/-! Runs of compiled programs.

A compiled program has a chart, so its runs find their operands wherever they stand. Its tests
and the heads of its loops jump forward, so that on a budget its runs end. -/
namespace Persona

open Compilation (Block Boundary Each Parts Sits bodyBlock each_append)
open Machine (OnChart Steps)

theorem Chart.Checks.isForward {t : Chart} {o : Nat} {s : Site} {i : Instruction} (h : t.Checks o s i) :
    i.IsForward := by
  cases i with
  | jumpIfFalse d | forNext d => exact h.1
  | _ => trivial

/-! ### The chart of a program -/

theorem Compilation.Each.at {q : Nat → Compilation.Piece → Prop} {off : Nat} {front back : Compilation.Code}
    {p : Compilation.Piece} (h : Each q off (front ++ p :: back)) : q (off + Compilation.size front) p :=
  (each_append.1 h).2.1

/-- Instructions take as many bytes as they are written with. -/
theorem Compilation.size_instrs (is : List Instruction) :
    Compilation.size (is.map .instr) = (is.flatMap Instruction.encode).length := by
  induction is with
  | nil => rfl
  | cons i is ih =>
    rw [List.flatMap_cons, List.length_append, ← ih]
    rfl

namespace Compilation.Parts.Charted

variable {p : Program} {x : Parts p} {t : Chart}

/-- Where the chart of a program has a site, an instruction of the code is fetched and checked. -/
theorem fetches (hx : x.Charted t) (hpool : (Pool.ofProgram p).constants.length < 2 ^ 64)
    (hentry : x.entry < 2 ^ 64) {o : Nat} {s : Site} (hs : t o = some s) :
    ∃ i, .instr i ∈ x.whole ∧ (Code.ofBytecode x.bytecode).fetch o = .ok (i, o + i.size) ∧ t.Checks o s i := by
  obtain ⟨front, piece, back, hwhole, rfl⟩ := hx.starts o s hs
  have hmem : piece ∈ x.whole := hwhole ▸ List.mem_append_right _ (List.mem_cons_self ..)
  have hfetches := (Simulation.placed_whole x hpool hentry 0).each
  have hsits := hx.sits
  rw [hwhole] at hfetches hsits
  have hfetch := hfetches.at
  have hsit := hsits.at
  rw [Nat.zero_add] at hfetch hsit
  cases piece with
  | exit =>
    obtain ⟨s', hs', -⟩ := hsit
    cases hs'
  | instr i =>
    obtain ⟨s', hs', hchecks⟩ := hsit
    cases hs.symm.trans hs'
    exact ⟨i, hmem, hfetch, hchecks⟩

theorem sound (hx : x.Charted t) (hpool : (Pool.ofProgram p).constants.length < 2 ^ 64)
    (hentry : x.entry < 2 ^ 64) : t.Sound (.ofBytecode x.bytecode) := by
  intro o s hs
  obtain ⟨i, -, hfetch, hchecks⟩ := hx.fetches hpool hentry hs
  exact ⟨i, hfetch, hchecks⟩

theorem isForward (hx : x.Charted t) : ∀ y ∈ Instruction.located 0 (instructions x.whole), y.2.IsForward := by
  have hsits := hx.sits
  obtain ⟨is, his⟩ := exists_instrs (fun o ⟨s, hs, _⟩ => nomatch hs) hsits
  rw [his] at hsits ⊢
  rw [instructions_instrs]
  intro y hy
  obtain ⟨s, -, hchecks⟩ := each_located hsits y hy
  exact hchecks.isForward

/-- The last instruction of the code begins with nothing on the stack. -/
theorem last_site (hx : x.Charted t) (hpool : (Pool.ofProgram p).constants.length < 2 ^ 64)
    (hentry : x.entry < 2 ^ 64) {o : Nat} (ho : o + 1 = x.bytecode.code.length) : t o = some ⟨false, []⟩ := by
  obtain ⟨front, hwhole, hlast⟩ := hx.last
  obtain ⟨is, his, -, hcode⟩ := x.exists_encodable hpool hentry
  have hsize : size x.whole = size front + 1 := by
    rw [hwhole, size_append]
    rfl
  rw [hcode, ← size_instrs, ← his, hsize] at ho
  rwa [Nat.succ.inj ho]

end Compilation.Parts.Charted

/-! ### Balance -/

/-- What a machine finds on the operand stack, with this many operands at each place: the
instruction takes only operands of the present call, and nothing is left at the last
instruction. -/
structure Machine.Level (b : Bytecode) (height : Nat → Nat) (m : Machine) : Prop where
  height_eq : m.stack.height = m.base + height m.pointer
  needs_le : ∀ i next, (Code.ofBytecode b).fetch m.pointer = .ok (i, next) → i.needs ≤ height m.pointer
  empty : m.pointer + 1 = b.code.length → m.frames = [] ∧ m.stack.values = []

/-- The block stands in the program, and where its statements begin and end there are two
operands for each `for` loop around them. -/
def Compilation.Parts.IsLevel {p : Program} (x : Parts p) (height : Nat → Nat) (b : Block) : Prop :=
  b.StandsIn (Pool.ofProgram p) x.table x.whole ∧
    ∀ o loops, Boundary (Pool.ofProgram p) b o loops → height o = 2 * loops

theorem Compilation.Parts.HasBlock.isLevel {p : Program} {x : Parts p} {t : Chart} {b : Block} (h : x.HasBlock t b) :
    x.IsLevel t.height b := by
  obtain ⟨hstands, hcharted⟩ := h
  refine ⟨hstands, fun o loops ho => ?_⟩
  rw [Chart.height, hcharted o loops ho]
  exact Compilation.length_loopSlots loops

/-- A compiled program keeps its operands in order. How many there are above the base of the
present call depends on the place alone, at the boundaries of statements they are two for each
`for` loop around, and no run takes more than there are or ends with a fault of the code. -/
theorem level_of_compile {p : Program} {b : Bytecode} (hcompile : compile p = .ok b)
    (hconstants : b.constants.length < 2 ^ 64) (hentry : b.entry < 2 ^ 64) :
    ∃ (x : Parts p) (height : Nat → Nat), b = x.bytecode ∧ x.IsLevel height x.mainBlock ∧
      (∀ y ∈ x.table, ∃ es, x.IsLevel height (bodyBlock y.1 es y.2)) ∧
      ∀ (h : Host) (profile : Profile) (clock : Clock),
        (∀ n m, Steps h (.ofBytecode b) n (.start b (.start h profile clock)) m → m.Level b height) ∧
        ∀ steps o, b.execute? h steps (.start h profile clock) = some o → ∀ c, o.ending ≠ .faulted (.code c) := by
  obtain ⟨x, rfl⟩ := Compilation.exists_parts hcompile
  obtain ⟨t, hx⟩ := x.exists_chart
  have hsound := hx.sound hconstants hentry
  have hv := x.valid hconstants hentry
  refine ⟨x, t.height, rfl, hx.main.isLevel, fun y hy => ?_, fun h profile clock => ⟨fun n m hsteps => ?_, ?_⟩⟩
  · obtain ⟨es, hes⟩ := hx.bodies y hy
    exact ⟨es, hes.isLevel⟩
  · have hm := Machine.onChart_steps hsound (OnChart.start hx.entry h profile clock) hsteps
    exact ⟨hm.height_eq, fun i next hfetch => hm.needs_le hsound hfetch,
      fun hlast => hm.empty (hx.last_site hconstants hentry hlast)⟩
  · intro steps o ho c hending
    obtain ⟨result, m, ⟨n, a, hsteps, hstep⟩, rfl⟩ := Bytecode.ends_of_execute? ho
    have ha := Machine.onChart_steps hsound (OnChart.start hx.entry h profile clock) hsteps
    have hintact := (Machine.Intact.start hv h profile clock).steps hv hsteps
    cases result with
    | ok u => cases hending
    | error e =>
      have hplain := ha.plain hv hintact hsound hstep
      cases e with
      | code c' => exact hplain c' rfl
      | _ => cases hending

/-- The loop of `callLoop` and its call leave nothing behind. -/
theorem level_callLoop : ∃ height : Nat → Nat, ∀ n m, Steps {} (.ofBytecode callLoopCode) n
    (.start callLoopCode (.start {} .default none)) m → m.Level callLoopCode height := by
  obtain ⟨-, height, -, -, -, hruns⟩ := level_of_compile compile_callLoop (by decide) (by decide)
  exact ⟨height, (hruns {} .default none).1⟩

/-! ### Budgets -/

/-- With a clock that ends its budget after some looks, a program comes to an end in both
ways of running it. -/
theorem ends_on_budget (p : Program) (h : Host) (profile : Profile) (looks : Nat) :
    (∃ fuel o, p.interpret? h fuel (.start h profile (some looks)) = some o) ∧
      ∀ b, compile p = .ok b → b.constants.length < 2 ^ 64 → b.entry < 2 ^ 64 →
        ∃ steps o, b.execute? h steps (.start h profile (some looks)) = some o := by
  refine ⟨⟨looks + 1, p.exists_interpret h profile (Nat.lt_succ_self looks)⟩, fun b hcompile hconstants hentry => ?_⟩
  obtain ⟨x, rfl⟩ := Compilation.exists_parts hcompile
  obtain ⟨t, hx⟩ := x.exists_chart
  exact (x.valid hconstants hentry).exists_execute hx.isForward h profile looks

theorem ends_callLoop : ∃ steps o, callLoopCode.execute? {} steps (.start {} .default (some 5)) = some o :=
  (ends_on_budget callLoop {} .default 5).2 callLoopCode compile_callLoop (by decide) (by decide)

end Persona
