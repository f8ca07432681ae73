import Persona.Proofs.Analysis.Scopes
import Persona.Proofs.Compilation.Emitted
import Persona.Proofs.Compilation.Validity
import Persona.Proofs.Machine.Steps
import Persona.Proofs.Simulation.Twin
import Persona.Proofs.Value.Hereditary

/-! Names that stand for built-ins throughout.

Whether a name stands for its built-in is decided once for a whole program: it does if no statement
binds it, no parameter has it, and no expression assigns it, wherever these stand. That is right as long
as scopes only ever get the names of the program. On a machine, these come from the pool by the operands
of three instructions, so it is enough to know where compiled code has its operands from; functions carry
the names of their parameters with them, through variables and on the stack. -/
namespace Persona

open Effect (Keeps)

/-! ### Sessions -/

/-- All functions in the value have parameters with these names. -/
def Value.Takes (names : List String) (v : Value) : Prop := v.HoldsOnly fun g => g.params ⊆ names

/-- Variables have these names, and so have the parameters of the functions that they hold. -/
structure Session.Bound (names : List String) (s : Session) : Prop where
  within : s.Within names
  every : s.Every (Value.Takes names)

namespace Session.Bound

variable {names params : List String} {s : Session} {name : String} {v : Value} {vs : List Value}

theorem start (names : List String) (h : Host) (profile : Profile) (clock : Clock) :
    (Session.start h profile clock).Bound names :=
  ⟨.start names h profile clock, every_start _ h profile clock⟩

theorem define (hs : s.Bound names) (hname : name ∈ names) (hv : v.Takes names) : (s.define name v).Bound names :=
  ⟨hs.within.define hname v, hs.every.define hv name⟩

theorem assign (hs : s.Bound names) (hname : name ∈ names) (hv : v.Takes names) : (s.assign name v).Bound names :=
  ⟨hs.within.assign hname v, hs.every.assign hv name⟩

theorem defineAll (hs : s.Bound names) (hparams : params ⊆ names) (hvs : ∀ v ∈ vs, v.Takes names) :
    (s.defineAll (params.zip vs)).Bound names :=
  ⟨hs.within.defineAll hparams vs, hs.every.defineAll hvs⟩

theorem push (hs : s.Bound names) : Bound names { s with frames := [] :: s.frames } := ⟨hs.within.push, hs.every.push⟩

theorem pop (hs : s.Bound names) : s.pop.Bound names := ⟨hs.within.pop, hs.every.pop⟩

end Session.Bound

/-! ### Instructions -/

/-- The instruction binds only these names, itself or as parameters of the function that it makes. -/
def Instruction.BindsOnly (constants : List Constant) (names : List String) : Instruction → Prop
  | storeVar idx | defineVar idx => ∀ s, constants[idx]? = some (.string s) → s ∈ names
  | makeFunction _ params _ => ∀ idx ∈ params, ∀ s, constants[idx]? = some (.string s) → s ∈ names
  | _ => True

namespace Machine

/-- The names in a machine are among these. -/
structure Bound (names : List String) (m : Machine) : Prop where
  session : m.session.Bound names
  stack : ∀ v ∈ m.stack.values, v.Takes names

variable {names : List String} {p : Bytecode} {h : Host} {c : Code} {next : Nat} {v : Value}

/-- The computation keeps the names in the machine among these. -/
abbrev Minds (names : List String) (Q : α → Prop) (x : Exec α) : Prop := Keeps (Bound names) (fun _ => True) Q x

theorem Bound.withSession {m : Machine} (hm : m.Bound names) {session : Session} (hs : session.Bound names) :
    Bound names { m with session } := ⟨hs, hm.stack⟩

/-- What is bound has no other functions than those with parameters of these names. -/
theorem upkeep_bound (h : Host) (names : List String) :
    Upkeep h (fun _ => True) (fun g => g.params ⊆ names) (Bound names) where
  operands hm := hm.stack
  session hm := Session.every_holdsOnly.1 hm.session.every
  stack hm hs := ⟨hm.session, hs⟩
  inert _ _ _ := ⟨fun _ _ hm => hm.withSession ⟨hm.session.within, hm.session.every⟩,
    fun _ _ hm => hm.withSession ⟨hm.session.within, hm.session.every⟩,
    fun _ _ hm _ => hm.withSession ⟨hm.session.within, hm.session.every⟩⟩
  profile hm := hm.withSession ⟨hm.session.within, hm.session.every⟩
  made hm := hm.withSession ⟨hm.session.within, hm.session.every⟩
  scope hm := hm.withSession hm.session.push
  logical _ := trivial
  extension _ := trivial
  underflow := trivial
  noIterator := trivial

/-! ### Constants -/

theorem minds_constant (idx : Nat) : Minds names (Value.Takes names) (constant (.ofBytecode p) idx) := by
  unfold constant
  rw [constant?_ofBytecode]
  cases p.constants[idx]? with
  | none => exact Keeps.throw trivial
  | some k => exact Keeps.pure (holds_constant k)

theorem minds_name (idx : Nat) :
    Minds names (fun s => p.constants[idx]? = some (.string s)) (name (.ofBytecode p) idx) := by
  unfold name
  rw [constant?_ofBytecode]
  cases p.constants[idx]? with
  | none => exact Keeps.throw trivial
  | some k =>
    cases k with
    | number bits => exact Keeps.throw trivial
    | string s => exact Keeps.pure rfl

theorem minds_names {idxs : List Nat} (hidxs : ∀ idx ∈ idxs, ∀ s, p.constants[idx]? = some (.string s) → s ∈ names) :
    Minds names (fun ps => ps ⊆ names) (Machine.names (.ofBytecode p) idxs) := by
  induction idxs with
  | nil => exact Keeps.pure (List.nil_subset _)
  | cons idx idxs ih =>
    obtain ⟨hidx, hrest⟩ := List.forall_mem_cons.1 hidxs
    refine (minds_name idx).bind fun s hs => (ih hrest).bind fun ps hps => Keeps.pure ?_
    exact List.cons_subset.2 ⟨hidx s hs, hps⟩

theorem minds_traitValues (entries : List (Trait × Nat)) :
    Minds names (fun _ => True) (traitValues (.ofBytecode p) entries) := by
  induction entries with
  | nil => exact Keeps.pure trivial
  | cons entry rest ih =>
    refine (minds_constant entry.2).bind fun v _ => ?_
    split
    · exact ih.bind fun _ _ => Keeps.pure trivial
    · exact Keeps.throw trivial

theorem minds_goto (o : Nat) : Minds names (fun _ => True) (goto o) := Keeps.modify fun _ hm => ⟨hm.session, hm.stack⟩

theorem minds_jump (d : Int) : Minds names (fun _ => True) (jump c next d) := by
  unfold jump
  split
  · split
    · exact minds_goto _
    · exact Keeps.throw trivial
  · exact Keeps.throw trivial

/-! ### Steps -/

/-- An instruction that binds only these names keeps those in the machine among them: the scope of a call gets the
parameters of the function that is called, and a function those that the instruction has. -/
theorem minds_execute {i : Instruction} (hi : i.BindsOnly p.constants names) :
    Minds names (fun _ => True) (execute h (.ofBytecode p) next i) := by
  have U := upkeep_bound h names
  cases i with
  | pushConst idx => exact (minds_constant idx).bind fun _ hv => U.pushed hv
  | loadVar idx => exact (minds_name idx).bind fun s _ => (U.lookup s).bind fun _ hv => U.pushed hv
  | storeVar idx => exact U.storeVar (minds_name idx) fun hs hv hm => hm.withSession (hm.session.assign (hi _ hs) hv)
  | defineVar idx => exact U.defineVar (minds_name idx) fun hs hv hm => hm.withSession (hm.session.define (hi _ hs) hv)
  | call argc discard =>
    exact U.call (fun _ _ => trivial) fun hg _ hvs hm => ⟨hm.session.defineAll hg hvs, hm.stack⟩
  | ret => exact U.ret fun _ hm => ⟨hm.session.pop, fun w hw => hm.stack w (List.mem_of_mem_drop hw)⟩
  | jump d => exact U.jump (minds_jump d)
  | jumpIfFalse d => exact U.jumpIfFalse (minds_jump d)
  | forNext d => exact U.forNext (minds_jump d)
  | makeFunction fn params entry =>
    refine (minds_name fn).bind fun s _ => (minds_names hi).bind fun ps hps => ?_
    exact (U.makeFunction s ps (.compiled entry) fun _ => hps).bind fun _ hv => U.pushed hv
  | personality entries =>
    exact (minds_traitValues entries).bind fun ts _ => (U.applyPersonality ts).bind fun _ _ => Keeps.pure trivial
  | _ => exact U.onOperands rfl

section
variable {is : List (Nat × Instruction)} {n : Nat} {m m' : Machine}

/-- What an intact machine fetches is one of the program's instructions. -/
theorem Intact.mem_of_fetch (hv : p.Valid is) (hm : m.Intact p is) {i : Instruction}
    (hfetch : (Code.ofBytecode p).fetch m.pointer = .ok (i, next)) : (m.pointer, i) ∈ is := by
  rw [fetch_ofBytecode] at hfetch
  rcases hm.pointer with hstart | hend
  · obtain ⟨⟨o, j⟩, hmem, rfl⟩ := List.mem_map.1 hstart
    obtain ⟨-, next', hdecode, -⟩ := hv.decodes.decodeAt hmem
    cases hfetch.symm.trans hdecode
    exact hmem
  · rw [hend, Instruction.decodeAt, List.drop_length] at hfetch
    cases hfetch

/-- A step binds no names but those that the program's instructions bind, however it ends. -/
theorem Bound.step (hv : p.Valid is) (hbinds : ∀ x ∈ is, x.2.BindsOnly p.constants names) (hintact : m.Intact p is)
    (hm : m.Bound names) : (Machine.step h (.ofBytecode p) m).2.Bound names := by
  cases hfetch : (Code.ofBytecode p).fetch m.pointer with
  | error e =>
    unfold Machine.step
    rw [Effect.get_bind_apply, hfetch]
    exact hm
  | ok fetched =>
    have hi := hbinds _ (hintact.mem_of_fetch hv hfetch)
    rw [step_eq hfetch]
    exact (minds_execute hi { m with pointer := fetched.2 } ⟨hm.session, hm.stack⟩).1

/-- Nor does a run. -/
theorem Bound.steps (hv : p.Valid is) (hbinds : ∀ x ∈ is, x.2.BindsOnly p.constants names) (hintact : m.Intact p is)
    (hm : m.Bound names) (hsteps : Steps h (.ofBytecode p) n m m') : m'.Bound names := by
  induction hsteps with
  | none m => exact hm
  | more hstep _ ih =>
    have hbound := hm.step (h := h) hv hbinds hintact
    rw [hstep] at hbound
    exact ih (hintact.step hv hstep) hbound

end

end Machine

/-! ### Names of a program -/

namespace Program

variable {p : Program} {st : Stmt} {fs : List Function} {s : Session}

theorem binds_subset_bound (hst : st ∈ Stmt.deepList p.statements) : st.binds ⊆ p.bound := fun _ hname =>
  List.mem_flatMap.2 ⟨st, hst, List.mem_append_left _ (List.mem_append_left _ hname)⟩

theorem params_subset_bound {d : FunctionDecl} (hd : .function d ∈ Stmt.deepList p.statements) :
    d.params.map (·.name) ⊆ p.bound := fun _ hname =>
  List.mem_flatMap.2 ⟨_, hd, List.mem_append_left _ (List.mem_append_right _ hname)⟩

theorem assigned_subset_bound (hst : st ∈ Stmt.deepList p.statements) {e : Expr} (he : e ∈ st.exprs) :
    e.assigned ⊆ p.bound := fun _ hname =>
  List.mem_flatMap.2 ⟨st, hst, List.mem_append_right _ (List.mem_flatMap.2 ⟨e, he, hname⟩)⟩

/-- An assignment binds, however deep in an expression it stands. -/
theorem target_mem_bound {target : Identifier} {value : Expr}
    (hassign : .assign target value ∈ Stmt.parts (Stmt.deepList p.statements)) : target.name ∈ p.bound := by
  obtain ⟨st, hst, hpart⟩ := List.mem_flatMap.1 hassign
  obtain ⟨e, he, hpart⟩ := List.mem_flatMap.1 hpart
  exact assigned_subset_bound hst he (List.mem_filterMap.2 ⟨_, hpart, rfl⟩)

theorem bindings_subset_bound {ss : List Stmt} (hss : Stmt.ownList ss ⊆ Stmt.deepList p.statements) :
    Stmt.bindings ss ⊆ p.bound := by
  intro name hname
  obtain ⟨st, hst, hname⟩ := List.mem_flatMap.1 hname
  rcases List.mem_append.1 hname with hname | hname
  · exact binds_subset_bound (hss hst) hname
  · obtain ⟨e, he, hname⟩ := List.mem_flatMap.1 hname
    exact assigned_subset_bound (hss hst) he hname

theorem names_subset_bound {f : Function} (hf : p.Declares f) : f.names ⊆ p.bound := by
  obtain ⟨d, hd, hmakes⟩ := hf
  rw [hmakes.names]
  refine List.append_subset.2 ⟨params_subset_bound (Stmt.mem_functions.1 hd), bindings_subset_bound ?_⟩
  exact fun _ hst => Stmt.mem_deepList_of_mem_body hd hst

theorem names_of_frames {frames : List Scope}
    (h : List.Forall₂ (fun f scope => p.Declares f ∧ ∀ e ∈ scope, e.1 ∈ f.names) fs frames) :
    ∀ scope ∈ frames, ∀ e ∈ scope, e.1 ∈ p.bound := by
  induction h with
  | nil => exact List.forall_mem_nil _
  | cons htop _ ih => exact List.forall_mem_cons.2 ⟨fun e he => names_subset_bound htop.1 (htop.2 e he), ih⟩

/-- What the analysis knows of scopes says that their names are bound somewhere. -/
theorem Scoped.within (hs : p.Scoped fs s) : s.Within p.bound := by
  refine List.forall_mem_cons.2 ⟨fun e he => ?_, names_of_frames hs.frames⟩
  exact bindings_subset_bound (fun _ hst => Stmt.mem_deepList_of_mem_ownList hst) (hs.globals e he)

/-- So it is when a walk of the tree has ended, a block of the personality that is refused included. -/
theorem within_program (p : Program) (h : Host) (fuel : Nat) (profile : Profile) (clock : Clock) :
    (Evaluation.program h fuel p (.start h profile clock)).2.Within p.bound := by
  by_cases hblocks : ∀ block ∈ p.personalityBlocks, TraitEntry.Admissible block
  · have happly := Evaluation.applyBlocks_of_admissible (s := .start h profile clock) hblocks
    have hm : Evaluation.Reaches h fuel p (.start h profile clock) _ := .start happly
    rw [Evaluation.program, Effect.bind_ok happly]
    exact (p.scoped_of_reaches hm).2.1.within
  · obtain ⟨e, q, hfault⟩ := Evaluation.applyBlocks_of_refused (s := .start h profile clock) (by simpa using hblocks)
    rw [Evaluation.program, Effect.bind_error hfault]
    exact .start p.bound h q clock

end Program

theorem Pool.name_of_builtin? {pool : Pool} {name : String} {b : Builtin} (h : pool.builtin? name = some b) :
    b.name = name := by
  simpa using List.find?_some (builtin?_eq_some.1 h).2

/-- Compiled code binds the names of its program. -/
theorem Compilation.Emitted.bindsOnly {p : Program} {i : Instruction}
    (hi : Emitted (Pool.ofProgram p) (Stmt.deepList p.statements) i) :
    i.BindsOnly (Pool.ofProgram p).constants p.bound := by
  cases i with
  | storeVar idx =>
    obtain ⟨target, value, hassign, rfl⟩ := hi
    intro s hs
    cases eq_of_getElem?_indexOf hs
    exact Program.target_mem_bound hassign
  | defineVar idx =>
    obtain ⟨st, hst, name, hname, rfl⟩ := hi
    intro s hs
    cases eq_of_getElem?_indexOf hs
    exact Program.binds_subset_bound hst hname
  | makeFunction fn params entry =>
    obtain ⟨d, hd, -, rfl⟩ := hi
    intro idx hidx s hs
    obtain ⟨param, hparam, rfl⟩ := List.mem_map.1 hidx
    cases eq_of_getElem?_indexOf hs
    exact Program.params_subset_bound hd (List.mem_map_of_mem hparam)
  | _ => trivial

/-! ### Built-ins -/

/-- Scopes have only names that the pool has as bound, and each other name of a built-in stands for it. -/
structure Session.Direct (pool : Pool) (s : Session) : Prop where
  within : s.Within pool.bound
  lookup : ∀ name b, pool.builtin? name = some b → s.lookup? name = some (.builtin b)

theorem Session.Within.direct {pool : Pool} {s : Session} (hs : s.Within pool.bound) : s.Direct pool where
  within := hs
  lookup name b hb := by
    obtain ⟨hname, hb⟩ := Pool.builtin?_eq_some.1 hb
    rw [hs.lookup?_eq hname, hb]
    rfl

open Machine (Steps)

/-- In a walk of the tree as on a machine, no scope ever has a name that the program does not bind; so a name that
is taken to stand for a built-in always does, and whatever a machine is about to load directly, its name would give. -/
theorem direct_throughout (p : Program) (h : Host) (profile : Profile) (clock : Clock) :
    (∀ fuel, (Evaluation.program h fuel p (.start h profile clock)).2.Direct (Pool.ofProgram p) ∧
      ∀ m, Evaluation.Reaches h fuel p (.start h profile clock) m →
        m.session.Direct (Pool.ofProgram p) ∧ (m.after h).Direct (Pool.ofProgram p)) ∧
    ∀ b, compile p = .ok b → b.constants.length < 2 ^ 64 → b.entry < 2 ^ 64 →
      ∀ n m, Steps h (.ofBytecode b) n (.start b (.start h profile clock)) m →
        m.session.Direct (Pool.ofProgram p) ∧ (Machine.step h (.ofBytecode b) m).2.session.Direct (Pool.ofProgram p) ∧
        ∀ builtin next, (Code.ofBytecode b).fetch m.pointer = .ok (.loadBuiltin builtin, next) →
          m.session.lookup? builtin.name = some (.builtin builtin) := by
  have hbound : (Pool.ofProgram p).bound = p.bound := Pool.bound_internAll _ _
  have hdirect {s : Session} (hs : s.Within p.bound) : s.Direct (Pool.ofProgram p) :=
    Session.Within.direct (hbound.symm ▸ hs)
  refine ⟨fun fuel => ⟨?_, fun m hm => ?_⟩, fun b hcompile hconstants hentry n m hsteps => ?_⟩
  · exact hdirect (p.within_program h fuel profile clock)
  · obtain ⟨hbefore, hafter, -⟩ := p.scoped_of_reaches hm
    exact ⟨hdirect hbefore.within, hdirect hafter.within⟩
  · obtain ⟨x, rfl, hemitted⟩ := Compilation.exists_parts_emitted hcompile
    have hv := x.valid hconstants hentry
    have hwritten : ∀ y ∈ Instruction.located 0 (Compilation.instructions x.whole),
        Compilation.Emitted (Pool.ofProgram p) (Stmt.deepList p.statements) y.2 :=
      fun y hy => hemitted.of_mem_instructions (Instruction.mem_of_mem_located hy)
    have hbinds : ∀ y ∈ Instruction.located 0 (Compilation.instructions x.whole),
        y.2.BindsOnly x.bytecode.constants p.bound := fun y hy => (hwritten y hy).bindsOnly
    have hstart := Machine.Intact.start hv h profile clock
    have hintact := hstart.steps hv hsteps
    have hm := Machine.Bound.steps hv hbinds hstart
      ⟨Session.Bound.start p.bound h profile clock, List.forall_mem_nil _⟩ hsteps
    have hsession := hdirect hm.session.within
    refine ⟨hsession, hdirect (hm.step hv hbinds hintact).session.within, fun builtin next hfetch => ?_⟩
    obtain ⟨i, -, hi⟩ := hwritten _ (hintact.mem_of_fetch hv hfetch)
    rw [Pool.name_of_builtin? hi]
    exact hsession.lookup i.name builtin hi

/-- A function that assigns the name of one built-in inside an array, to another that nothing binds; and its call. -/
def hiddenStr : Program :=
  ⟨[.function ⟨⟨1, 1⟩, "f", [], none, [.giveBack ⟨1, 10⟩
      (some (.array [.assign ⟨"str", ⟨1, 18⟩⟩ (.identifier ⟨"len", ⟨1, 24⟩⟩)]))]⟩,
    .expr ⟨1, 31⟩ (.call ⟨1, 31⟩ (.identifier ⟨"f", ⟨1, 31⟩⟩) [])]⟩

def hiddenStrCode : Bytecode :=
  ⟨[.string "f", .string "str"], [33, 7, 1, 15, 1, 10, 2, 10, 18, 0, 0, 0, 192, 128, 56, 0], 8⟩

/-- In the call `str` is a variable, and `len` stands for its built-in as before. -/
theorem direct_throughout_hiddenStr :
    (∃ ts, tokenize "fn f() \x7b return [str = len] \x7d f()" = .ok ts ∧ parse 5 ts = .ok hiddenStr) ∧
    ∃ m, Steps {} (.ofBytecode hiddenStrCode) 6 (.start hiddenStrCode (.start {} .default none)) m ∧
      m.session.frames = [[("str", .builtin .len)]] ∧ "str" ∈ (Pool.ofProgram hiddenStr).bound ∧
      m.session.lookup? "len" = some (.builtin .len) := by
  refine ⟨⟨_, by cbv, by cbv⟩, ?_⟩
  have hcompile : compile hiddenStr = .ok hiddenStrCode := by decide +kernel
  obtain ⟨m, hsteps, hframes⟩ : ∃ m, Steps {} (.ofBytecode hiddenStrCode) 6
      (.start hiddenStrCode (.start {} .default none)) m ∧ m.session.frames = [[("str", .builtin .len)]] :=
    ⟨_, Machine.steps_of_run rfl, rfl⟩
  obtain ⟨hdirect, -⟩ := (direct_throughout hiddenStr {} .default none).2 _ hcompile (by decide) (by decide) 6 m hsteps
  refine ⟨m, hsteps, hframes, ?_, hdirect.lookup "len" .len (by decide +kernel)⟩
  exact hdirect.within [("str", .builtin .len)] (by simp [hframes]) ("str", .builtin .len) (List.mem_singleton_self _)

end Persona
