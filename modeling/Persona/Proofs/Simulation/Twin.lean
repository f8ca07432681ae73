import Persona.Proofs.Builtin.Effect
import Persona.Proofs.Compilation.Layout
import Persona.Proofs.Machine.Operands
import Persona.Proofs.Text.Keyed

/-! Values and sessions of a machine as an evaluation has them.

A machine's functions have entries where those of an evaluation have statements. With the
statements that belong to its entries, the machine's session is the evaluation's, up to
the last variable; and what an action does in the one it does in the other. -/
namespace Persona

/-! ### Names of variables -/

namespace Session

/-- All variables have names among these. -/
def Within (names : List String) (s : Session) : Prop :=
  ∀ scope ∈ s.globals :: s.frames, ∀ e ∈ scope, e.1 ∈ names

namespace Within

variable {names : List String} {s : Session}

theorem define (hs : s.Within names) {name : String} (hname : name ∈ names) (v : Value) :
    (s.define name v).Within names := by
  have hinsert : ∀ scope ∈ s.globals :: s.frames, ∀ e ∈ Keyed.insert name v scope, e.1 ∈ names := by
    intro scope hscope e he
    rcases Keyed.key_of_mem_insert he with heq | he
    · rwa [heq]
    · exact hs scope hscope e he
  unfold Session.define
  split
  · intro scope hscope
    rcases List.mem_cons.1 hscope with rfl | hscope
    · exact hinsert _ (List.mem_cons_self ..)
    · exact hs scope (List.mem_cons_of_mem _ hscope)
  · next top rest hframes =>
    rw [hframes] at hinsert
    intro scope hscope
    rcases List.mem_cons.1 hscope with rfl | hscope
    · exact hs _ (List.mem_cons_self ..)
    rcases List.mem_cons.1 hscope with rfl | hscope
    · exact hinsert top (List.mem_cons_of_mem _ (List.mem_cons_self ..))
    · refine hs scope (List.mem_cons_of_mem _ ?_)
      rw [hframes]
      exact List.mem_cons_of_mem _ hscope

theorem assign (hs : s.Within names) {name : String} (hname : name ∈ names) (v : Value) :
    (s.assign name v).Within names := by
  unfold Session.assign
  split
  · intro scope hscope
    rcases List.mem_cons.1 hscope with rfl | hscope
    · intro e he
      rcases Keyed.key_of_mem_insert he with heq | he
      · rwa [heq]
      · exact hs _ (List.mem_cons_self ..) e he
    · exact hs scope (List.mem_cons_of_mem _ hscope)
  · exact hs.define hname v

theorem start (names : List String) (h : Host) (profile : Profile) (clock : Clock) :
    (Session.start h profile clock).Within names := by
  intro scope hscope
  cases List.mem_singleton.1 hscope
  exact List.forall_mem_nil _

theorem defineAll (hs : s.Within names) {params : List String} (hparams : params ⊆ names) (vs : List Value) :
    (s.defineAll (params.zip vs)).Within names := by
  induction params generalizing s vs with
  | nil => exact hs
  | cons param params ih =>
    obtain ⟨hparam, hparams⟩ := List.cons_subset.1 hparams
    cases vs with
    | nil => exact hs
    | cons v vs => exact ih (hs.define hparam v) hparams vs

/-- A call begins with an empty scope. -/
theorem push (hs : s.Within names) : Within names { s with frames := [] :: s.frames } := by
  intro scope hscope
  rcases List.mem_cons.1 hscope with rfl | hscope
  · exact hs _ (List.mem_cons_self ..)
  rcases List.mem_cons.1 hscope with rfl | hscope
  · exact List.forall_mem_nil _
  · exact hs scope (List.mem_cons_of_mem _ hscope)

theorem pop (hs : s.Within names) : s.pop.Within names := by
  intro scope hscope
  rcases List.mem_cons.1 hscope with rfl | hscope
  · exact hs _ (List.mem_cons_self ..)
  · exact hs scope (List.mem_cons_of_mem _ (List.mem_of_mem_tail hscope))

theorem scope_mem (s : Session) : s.scope ∈ s.globals :: s.frames := by
  unfold scope
  cases s.frames with
  | nil => exact List.mem_cons_self ..
  | cons top rest => exact List.mem_cons_of_mem _ (List.mem_cons_self ..)

/-- A name that no variable has is that of a built-in, if of anything. -/
theorem lookup?_eq (hs : s.Within names) {name : String} (hname : name ∉ names) :
    s.lookup? name = (Builtin.ofName? name).map Value.builtin := by
  have hnone : ∀ scope ∈ s.globals :: s.frames, Keyed.get? name scope = none := by
    intro scope hscope
    refine Keyed.get?_eq_none fun e he heq => hname ?_
    rw [← heq]
    exact hs scope hscope e he
  rw [lookup?, hnone _ (scope_mem s), hnone _ (List.mem_cons_self ..)]
  rfl

end Within

end Session

namespace Simulation

open Compilation (Table)

/-! ### Bodies -/

/-- The statements of the body at a function's entry. -/
def decompile (table : Table) (g : Function) : FunctionBody :=
  match g.body with
  | .compiled entry => .script (((table.find? fun x => x.1 = entry).map Prod.snd).getD [])
  | .script body => .script body

/-- A function with the entry of one of the bodies, and with parameters that the program
binds. -/
structure Known (pool : Pool) (table : Table) (g : Function) : Prop where
  body : ∃ entry body, g.body = .compiled entry ∧ (entry, body) ∈ table
  params : ∀ name ∈ g.params, name ∈ pool.bound

theorem decompile_eq {table : Table} (hincrease : table.Pairwise fun x y => x.1 < y.1) {entry : Nat}
    {body : List Stmt} (hmem : (entry, body) ∈ table) {g : Function} (hg : g.body = .compiled entry) :
    decompile table g = .script body := by
  have hfind : table.find? (fun x => x.1 = entry) = some (entry, body) := by
    induction table with
    | nil => cases hmem
    | cons first rest ih =>
      obtain ⟨hfirst, hrest⟩ := List.pairwise_cons.1 hincrease
      rcases List.mem_cons.1 hmem with heq | htail
      · rw [← heq]
        exact List.find?_cons_of_pos (by simp)
      · have hlt := hfirst _ htail
        rw [List.find?_cons_of_neg (by simpa using Nat.ne_of_lt hlt)]
        exact ih hrest htail
  rw [decompile, hg]
  simp only
  rw [hfind]
  rfl

/-! ### Values -/

/-- A value of the evaluation and the same value of the machine. -/
structure Alike (pool : Pool) (table : Table) (v w : Value) : Prop where
  same : v = w.mapBodies (decompile table)
  known : w.HoldsOnly (Known pool table)

namespace Alike

variable {pool : Pool} {table : Table} {v w : Value}

theorem isTruthy (h : Alike pool table v w) : v.isTruthy = w.isTruthy := by
  rw [h.same, Value.isTruthy_mapBodies]

theorem kind (h : Alike pool table v w) : v.kind = w.kind := by
  rw [h.same, Value.kind_mapBodies]

/-- A value without functions is like itself. -/
theorem refl (h : v.functions = []) : Alike pool table v v := by
  refine ⟨(Value.mapBodies_eq_self_iff v |>.2 ?_).symm, ?_⟩
  · rw [h]
    exact fun g hg => absurd hg List.not_mem_nil
  · intro g hg
    rw [h] at hg
    exact absurd hg List.not_mem_nil

theorem null : Alike pool table .null .null := refl rfl

theorem bool (b : Bool) : Alike pool table (.bool b) (.bool b) := refl rfl

theorem builtin (b : Builtin) : Alike pool table (.builtin b) (.builtin b) := refl rfl

theorem array {items ws : Array Value} (hitems : items = ws.map (Value.mapBodies (decompile table)))
    (hws : ∀ w ∈ ws, w.HoldsOnly (Known pool table)) : Alike pool table (.array items) (.array ws) := by
  refine ⟨?_, Value.holds_items.2 hws⟩
  rw [hitems, Value.mapBodies_array]

/-- Items of arrays that are alike. -/
theorem items {xs ws : Array Value} (h : Alike pool table (.array xs) (.array ws)) :
    xs = ws.map (Value.mapBodies (decompile table)) := by
  have hsame := h.same
  rw [Value.mapBodies_array] at hsame
  exact Value.array.inj hsame

end Alike

/-- Values of the evaluation and the machine's in the same order. -/
structure AllAlike (pool : Pool) (table : Table) (vs ws : List Value) : Prop where
  same : vs = ws.map (Value.mapBodies (decompile table))
  known : ∀ w ∈ ws, w.HoldsOnly (Known pool table)

namespace AllAlike

variable {pool : Pool} {table : Table} {v w : Value} {vs ws : List Value}

theorem nil : AllAlike pool table [] [] := ⟨rfl, fun _ hw => absurd hw List.not_mem_nil⟩

theorem snoc (h : AllAlike pool table vs ws) (hv : Alike pool table v w) :
    AllAlike pool table (vs ++ [v]) (ws ++ [w]) := by
  refine ⟨?_, ?_⟩
  · rw [h.same, hv.same, List.map_append]
    rfl
  · intro u hu
    rcases List.mem_append.1 hu with hu | hu
    · exact h.known u hu
    · rw [List.mem_singleton.1 hu]
      exact hv.known

theorem length_eq (h : AllAlike pool table vs ws) : vs.length = ws.length := by
  rw [h.same, List.length_map]

end AllAlike

/-! ### Sessions -/

/-- A clock that no look changes: it has all the time, or none is left. -/
def Still (clock : Clock) : Prop := clock = none ∨ clock = some 0

theorem Still.look {clock later : Clock} (h : Still clock) (hlook : clock.look? = some later) :
    later = clock := by
  rcases h with rfl | rfl
  · exact (Option.some.inj hlook).symm
  · cases hlook

/-- A session of the evaluation and the machine's session. Their clock stands still, and their
variables have names that the program binds. -/
structure Twin (pool : Pool) (table : Table) (clock : Clock) (s u : Session) : Prop where
  same : s = u.mapBodies (decompile table)
  known : u.HoldsOnly (Known pool table)
  clock_eq : u.clock = clock
  still : Still clock
  within : u.Within pool.bound

namespace Twin

variable {pool : Pool} {table : Table} {clock : Clock} {s u : Session} {v w : Value}

theorem clock_left (h : Twin pool table clock s u) : s.clock = clock := by
  rw [h.same]
  exact h.clock_eq

theorem output (h : Twin pool table clock s u) : u.output = s.output := by
  rw [h.same]
  rfl

theorem calls (h : Twin pool table clock s u) : u.calls = s.calls := by
  rw [h.same]
  rfl

theorem depth (h : Twin pool table clock s u) : s.depth = u.depth := by
  rw [h.same, Session.depth_mapBodies]

theorem define (h : Twin pool table clock s u) (hv : Alike pool table v w) {name : String}
    (hname : name ∈ pool.bound) : Twin pool table clock (s.define name v) (u.define name w) where
  same := by rw [h.same, hv.same, Session.define_mapBodies]
  known := h.known.define hv.known name
  clock_eq := (u.clock_define name w).trans h.clock_eq
  still := h.still
  within := h.within.define hname w

theorem assign (h : Twin pool table clock s u) (hv : Alike pool table v w) {name : String}
    (hname : name ∈ pool.bound) : Twin pool table clock (s.assign name v) (u.assign name w) where
  same := by rw [h.same, hv.same, Session.assign_mapBodies]
  known := h.known.assign hv.known name
  clock_eq := (u.clock_assign name w).trans h.clock_eq
  still := h.still
  within := h.within.assign hname w

theorem defineAll (h : Twin pool table clock s u) {names : List String} {vs ws : List Value}
    (hnames : ∀ n ∈ names, n ∈ pool.bound) (hvs : AllAlike pool table vs ws) :
    Twin pool table clock (s.defineAll (names.zip vs)) (u.defineAll (names.zip ws)) := by
  obtain ⟨rfl, hknown⟩ := hvs
  induction names generalizing s u ws with
  | nil => exact h
  | cons name names ih =>
    obtain ⟨hname, hnames⟩ := List.forall_mem_cons.1 hnames
    cases ws with
    | nil => exact h
    | cons w ws =>
      obtain ⟨hw, hws⟩ := List.forall_mem_cons.1 hknown
      exact ih (h.define ⟨rfl, hw⟩ hname) hnames hws

theorem pop (h : Twin pool table clock s u) : Twin pool table clock s.pop u.pop where
  same := by rw [h.same, Session.pop_mapBodies]
  known := h.known.pop
  clock_eq := h.clock_eq
  still := h.still
  within := h.within.pop

/-- A call begins with an empty scope in both. -/
theorem push (h : Twin pool table clock s u) :
    Twin pool table clock { s with frames := [] :: s.frames } { u with frames := [] :: u.frames } where
  same := by
    rw [h.same]
    rfl
  known := by
    intro g hg
    refine h.known g ?_
    simpa [Session.functions, Session.scopeFunctions] using hg
  clock_eq := h.clock_eq
  still := h.still
  within := h.within.push

end Twin

/-! ### Actions -/

/-- The second action does in the machine's session what the first one does in the
evaluation's. -/
def Mirrors (pool : Pool) (table : Table) (a b : Action Value) : Prop :=
  ∀ clock s u, Twin pool table clock s u → Twin pool table clock (a s).2 (b u).2 ∧
    (a s).1 = (b u).1.map (Value.mapBodies (decompile table)) ∧
    ∀ w, (b u).1 = .ok w → w.HoldsOnly (Known pool table)

section
variable {pool : Pool} {table : Table} {v w : Value} {a b : Action Value}

theorem mirrors_pure (hv : Alike pool table v w) : Mirrors pool table (pure v) (pure w) := by
  intro clock s u htwin
  refine ⟨htwin, congrArg Except.ok hv.same, fun w' hw' => ?_⟩
  cases hw'
  exact hv.known

theorem mirrors_orFault {x y : Except Fault Value}
    (hxy : x = y.map (Value.mapBodies (decompile table))) (hy : ∀ w, y = .ok w → w.HoldsOnly (Known pool table)) :
    Mirrors pool table (Action.orFault x) (Action.orFault y) := by
  intro clock s u htwin
  subst hxy
  cases y with
  | error e => exact ⟨htwin, rfl, fun w hw => by cases hw⟩
  | ok w =>
    refine ⟨htwin, rfl, fun w' hw' => ?_⟩
    cases hw'
    exact hy w rfl

/-- An action that leaves variables and clock alone and does not look into functions. -/
theorem mirrors_of_natural (hnatural : Action.Natural (decompile table) (Value.mapBodies (decompile table)) b a)
    (hkeeps : Effect.Keeps (Session.HoldsOnly (Known pool table)) (fun _ => True) (Value.HoldsOnly (Known pool table)) b)
    (hinert : ∀ I : Session → Prop, Session.Inert I → Action.IsPlain I b) :
    Mirrors pool table a b := by
  intro clock s u htwin
  have hrun := hnatural u
  rw [← htwin.same] at hrun
  obtain ⟨hknown, hresult, -⟩ := hkeeps u htwin.known
  -- variables and clock together are inert
  have hvariables : Session.Inert fun v => v.globals = u.globals ∧ v.frames = u.frames ∧ v.clock = clock := by
    refine ⟨fun _ _ hv => hv, fun _ _ hv => hv, ?_⟩
    rintro v later ⟨hglobals, hframes, hclock⟩ hlook
    rw [hclock] at hlook
    exact ⟨hglobals, hframes, htwin.still.look hlook⟩
  obtain ⟨⟨hglobals, hframes, hclock⟩, -⟩ := hinert _ hvariables u ⟨rfl, rfl, htwin.clock_eq⟩
  refine ⟨⟨congrArg Prod.snd hrun, hknown, hclock, htwin.still, ?_⟩, congrArg Prod.fst hrun, hresult⟩
  unfold Session.Within
  rw [hglobals, hframes]
  exact htwin.within

theorem mirrors_lookup (name : String) :
    Mirrors pool table (Action.lookup name) (Action.lookup name) := by
  refine mirrors_of_natural (Action.natural_lookup name) ?_ fun I _ => Action.plain_lookup name
  exact (Action.natural_lookup name).keeps.imp (fun _ _ => trivial) fun v hv => Value.holds_iff.2 hv

theorem mirrors_call (h : Host) (b : Builtin) {vs ws : List Value} (hvs : AllAlike pool table vs ws) :
    Mirrors pool table (b.call h vs) (b.call h ws) := by
  obtain ⟨rfl, hknown⟩ := hvs
  exact mirrors_of_natural (Builtin.natural_call h b ws) (Builtin.keeps_call b hknown)
    fun I hI => Builtin.plain_call hI h b ws

theorem mirrors_makeFunction (hincrease : table.Pairwise fun x y => x.1 < y.1) {entry : Nat}
    {body : List Stmt} (hmem : (entry, body) ∈ table) (name : String) {params : List String}
    (hparams : ∀ p ∈ params, p ∈ pool.bound) :
    Mirrors pool table (Action.makeFunction name params (.script body))
      (Action.makeFunction name params (.compiled entry)) := by
  intro clock s u htwin
  refine ⟨⟨?_, htwin.known, htwin.clock_eq, htwin.still, htwin.within⟩, ?_, fun w hw => ?_⟩
  · rw [htwin.same]
    rfl
  · have hbody := decompile_eq hincrease hmem (g := ⟨⟨u.made, name⟩, params, .compiled entry⟩) rfl
    rw [htwin.same, ← hbody]
    rfl
  · cases hw
    intro g hg
    rw [List.mem_singleton.1 hg]
    exact ⟨⟨entry, body, rfl, hmem⟩, hparams⟩

end

end Simulation

end Persona
