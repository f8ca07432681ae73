import Mathlib
import Persona.Proofs.Analysis.Findings
import Persona.Proofs.Builtin.Call
import Persona.Proofs.Builtin.Effect
import Persona.Proofs.Evaluation.Law
import Persona.Proofs.Profile.Blocks
import Persona.Proofs.Syntax.Place
import Persona.Proofs.Value.Operation

/-! Names in scopes.

The analysis collects the names that the code of a call can bind; blocks open no scope, so these are
the names of one scope. Names that are bound while the program runs come from the code that runs, and
a name that is bound elsewhere already keeps its place: so the global scope has names that the
top-level statements bind, and the scope of a call has the parameters and the names that the body of
its function binds. -/
namespace Persona

/-- The function that running a declaration makes, apart from the serial number. -/
structure FunctionDecl.Makes (d : FunctionDecl) (f : Function) : Prop where
  name : f.id.name = d.name
  params : f.params = d.params.map (·.name)
  body : f.body = .script d.body

/-- The statements of a function's body, if it has any. -/
def Function.statements (f : Function) : List Stmt :=
  match f.body with
  | .script body => body
  | .compiled _ => []

/-- The names that the scope of a call can have. -/
def Function.names (f : Function) : List String := f.params ++ Stmt.bindings f.statements

theorem FunctionDecl.Makes.statements {d : FunctionDecl} {f : Function} (hd : d.Makes f) : f.statements = d.body := by
  rw [Function.statements, hd.body]

theorem FunctionDecl.Makes.names {d : FunctionDecl} {f : Function} (hd : d.Makes f) : f.names = Analysis.locals d := by
  rw [Function.names, hd.statements, hd.params, Analysis.locals]

namespace Program

/-- The function was made by one of the program's declarations. -/
def Declares (p : Program) (f : Function) : Prop := ∃ d ∈ Stmt.functions p.statements, d.Makes f

/-- The statements that run in the innermost call, or outside of all calls. -/
def code (p : Program) : List Function → List Stmt
  | [] => p.statements
  | f :: _ => f.statements

/-- The names that the scope of the innermost call can have, or the global one. -/
def names (p : Program) : List Function → List String
  | [] => Stmt.bindings p.statements
  | f :: _ => f.names

/-- What the analysis takes for granted: every scope has names that it knows of, and every function is
one that it has seen. -/
structure Scoped (p : Program) (fs : List Function) (s : Session) : Prop where
  globals : ∀ e ∈ s.globals, e.1 ∈ Stmt.bindings p.statements
  frames : List.Forall₂ (fun f scope => p.Declares f ∧ ∀ e ∈ scope, e.1 ∈ f.names) fs s.frames
  functions : s.HoldsOnly p.Declares

variable {p : Program} {fs : List Function} {f : Function} {s : Session} {name : String} {v : Value}

theorem bindings_subset_names (p : Program) (fs : List Function) : Stmt.bindings (p.code fs) ⊆ p.names fs := by
  cases fs with
  | nil => exact List.Subset.refl _
  | cons f fs => exact List.subset_append_right ..

/-! ### Steps -/

namespace Scoped

theorem start (h : Host) (profile : Profile) (clock : Clock) : p.Scoped [] (.start h profile clock) :=
  ⟨fun _ he => absurd he List.not_mem_nil, .nil, fun _ hg => absurd hg List.not_mem_nil⟩

theorem names_insert {names : List String} {scope : Scope} (hname : name ∈ names) (hscope : ∀ e ∈ scope, e.1 ∈ names) :
    ∀ e ∈ Keyed.insert name v scope, e.1 ∈ names := by
  intro e he
  rcases Keyed.key_of_mem_insert he with heq | he
  · exact heq ▸ hname
  · exact hscope e he

theorem define (hs : p.Scoped fs s) (hname : name ∈ p.names fs) (hv : v.HoldsOnly p.Declares) :
    p.Scoped fs (s.define name v) := by
  have hfunctions := Session.HoldsOnly.define hs.functions hv name
  obtain ⟨globals, frames, profile, output, clock, calls, made⟩ := s
  obtain ⟨hglobals, hframes, -⟩ := hs
  cases hframes with
  | nil => exact ⟨names_insert hname hglobals, .nil, hfunctions⟩
  | cons htop hrest => exact ⟨hglobals, .cons ⟨htop.1, names_insert hname htop.2⟩ hrest, hfunctions⟩

theorem assign (hs : p.Scoped fs s) (hname : name ∈ p.names fs) (hv : v.HoldsOnly p.Declares) :
    p.Scoped fs (s.assign name v) := by
  have hfunctions := Session.HoldsOnly.assign hs.functions hv name
  unfold Session.assign at hfunctions ⊢
  split at hfunctions
  · next hbound =>
    simp only [hbound, if_true]
    -- the name has been bound in the global scope before
    have hglobal : name ∈ Stmt.bindings p.statements := by
      by_contra hunknown
      have hnone : Keyed.get? name s.globals = none :=
        Keyed.get?_eq_none fun e he heq => hunknown (heq ▸ hs.globals e he)
      simp [hnone] at hbound
    exact ⟨names_insert hglobal hs.globals, hs.frames, hfunctions⟩
  · next hbound =>
    simp only [hbound]
    exact hs.define hname hv

theorem defineAll (hs : p.Scoped fs s) {bindings : List (String × Value)}
    (hbindings : ∀ b ∈ bindings, b.1 ∈ p.names fs ∧ b.2.HoldsOnly p.Declares) : p.Scoped fs (s.defineAll bindings) := by
  induction bindings generalizing s with
  | nil => exact hs
  | cons b rest ih =>
    obtain ⟨hname, hv⟩ := hbindings b (List.mem_cons_self ..)
    exact ih (hs.define hname hv) fun b hb => hbindings b (List.mem_cons_of_mem _ hb)

theorem push (hs : p.Scoped fs s) (hf : p.Declares f) : p.Scoped (f :: fs) { s with frames := [] :: s.frames } :=
  ⟨hs.globals, .cons ⟨hf, fun _ he => absurd he List.not_mem_nil⟩ hs.frames, hs.functions⟩

theorem pop (hs : p.Scoped (f :: fs) s) : p.Scoped fs s.pop := by
  have hfunctions := Session.HoldsOnly.pop hs.functions
  obtain ⟨globals, frames, profile, output, clock, calls, made⟩ := s
  obtain ⟨hglobals, hframes, -⟩ := hs
  cases hframes with
  | cons _ hrest => exact ⟨hglobals, hrest, hfunctions⟩

theorem inert : Session.Inert (p.Scoped fs) where
  print _ _ hs := ⟨hs.globals, hs.frames, hs.functions⟩
  call _ _ hs := ⟨hs.globals, hs.frames, hs.functions⟩
  look _ _ hs _ := ⟨hs.globals, hs.frames, hs.functions⟩

theorem declares (hs : p.Scoped (f :: fs) s) : p.Declares f := by
  obtain ⟨globals, frames, profile, output, clock, calls, made⟩ := s
  cases hs.frames with
  | cons htop _ => exact htop.1

theorem lookup?_eq_none (hs : p.Scoped (f :: fs) s) (hlocal : name ∉ f.names)
    (hglobal : name ∉ Stmt.bindings p.statements) (hbuiltin : Builtin.ofName? name = none) : s.lookup? name = none := by
  have hmissing : ∀ {names : List String} {scope : Scope}, (∀ e ∈ scope, e.1 ∈ names) → name ∉ names →
      Keyed.get? name scope = none := fun hscope hname =>
    Keyed.get?_eq_none fun e he heq => hname (heq ▸ hscope e he)
  obtain ⟨globals, frames, profile, output, clock, calls, made⟩ := s
  obtain ⟨hglobals, hframes, -⟩ := hs
  cases hframes with
  | cons htop _ =>
    unfold Session.lookup? Session.scope
    dsimp only [List.headD_cons]
    rw [hmissing htop.2 hlocal, hmissing hglobals hglobal, hbuiltin]
    rfl

end Scoped

/-! ### Runs -/

/-- The code of a call declares functions of the program only. -/
theorem mem_functions_of_mem_code {d : FunctionDecl} (hfs : ∀ f ∈ fs.head?, p.Declares f)
    (hd : .function d ∈ Stmt.ownList (p.code fs)) : d ∈ Stmt.functions p.statements := by
  cases fs with
  | nil => exact Stmt.mem_functions.2 (Stmt.mem_deepList_of_mem_ownList hd)
  | cons f fs =>
    obtain ⟨d', hd', hmakes⟩ := hfs f rfl
    rw [code, hmakes.statements] at hd
    exact Stmt.mem_functions.2 (Stmt.mem_deepList_of_mem_body hd' hd)

/-- The statements of a call, and the expressions in them, use and bind the names that are collected. -/
theorem sites_of_mem_ownList {st : Stmt} (hfs : ∀ f ∈ fs.head?, p.Declares f) (hst : st ∈ Stmt.ownList (p.code fs)) :
    (st.binds ⊆ Stmt.bindings (p.code fs) ∧ ∀ d, st = .function d → d ∈ Stmt.functions p.statements) ∧
      ∀ e ∈ st.exprs, ∀ part ∈ e.parts, (∀ i, part = .identifier i → i ∈ Stmt.uses (p.code fs)) ∧
        ∀ target value, part = .assign target value → target.name ∈ Stmt.bindings (p.code fs) := by
  refine ⟨⟨fun name hname => ?_, ?_⟩, fun e he part hpart => ⟨?_, ?_⟩⟩
  · exact List.mem_flatMap.2 ⟨st, hst, List.mem_append_left _ hname⟩
  · rintro d rfl
    exact mem_functions_of_mem_code hfs hst
  · rintro i rfl
    have huses : i ∈ e.uses := List.mem_filterMap.2 ⟨_, hpart, rfl⟩
    exact List.mem_flatMap.2 ⟨st, hst, List.mem_flatMap.2 ⟨e, he, huses⟩⟩
  · rintro target value rfl
    have hassigned : target.name ∈ e.assigned := List.mem_filterMap.2 ⟨_, hpart, rfl⟩
    exact List.mem_flatMap.2 ⟨st, hst, List.mem_append_right _ (List.mem_flatMap.2 ⟨e, he, hassigned⟩)⟩

/-- The law of scopes: the code that runs binds the names, and makes the functions, that the analysis has
collected. -/
def scopeLaw (h : Host) (p : Program) : Evaluation.Law h where
  Inv := p.Scoped
  Val v := v.HoldsOnly p.Declares
  Key _ := True
  node fs e := (∀ i, e = .identifier i → i ∈ Stmt.uses (p.code fs)) ∧
    ∀ target value, e = .assign target value → target.name ∈ Stmt.bindings (p.code fs)
  site fs s := s.binds ⊆ Stmt.bindings (p.code fs) ∧ ∀ d, s = .function d → d ∈ Stmt.functions p.statements
  null _ hg := absurd hg List.not_mem_nil
  bool _ _ hg := absurd hg List.not_mem_nil
  literal {_ l} _ := by cases l <;> exact fun _ hg => absurd hg List.not_mem_nil
  lookup hs hv := Session.HoldsOnly.lookup hs.functions hv
  binary ha hb hv := Value.holds_binary ha hb hv
  unary ha hv := Value.holds_unary ha hv
  index ho hk hv := Value.holds_index ho hk hv
  array hitems _ := Value.holds_items.2 hitems
  key _ _ _ := trivial
  map hes := Value.holds_map.2 fun e he => (hes e he).2
  items hv hitems := Value.holds_items.1 (Value.holds_of_items hv hitems)
  builtin {_ _ b} hvs s hs :=
    ⟨(Builtin.plain_call Scoped.inert h b _ s hs).1, (Builtin.keeps_call b hvs s hs.functions).2.1, fun _ _ => trivial⟩
  look hs := ⟨hs.globals, hs.frames, hs.functions⟩
  assign hnode hv hs := hs.assign (bindings_subset_names _ _ (hnode.2 _ _ rfl)) hv
  define hsite hname hv hs := hs.define (bindings_subset_names _ _ (hsite.1 hname)) hv
  makes {_ _ d} hsite hs := by
    refine ⟨⟨hs.globals, hs.frames, hs.functions⟩, fun g hg => ?_⟩
    cases List.mem_singleton.1 hg
    exact ⟨d, hsite.2 d rfl, rfl, rfl, rfl⟩
  enter {_ _ f _ vs} hf _ _ hvs hs := by
    refine (hs.push (hf f (List.mem_singleton_self f))).defineAll fun b hb => ?_
    obtain ⟨hname, hv⟩ := List.of_mem_zip hb
    exact ⟨List.mem_append_left _ hname, hvs _ hv⟩
  nodes {fs f body} hf hbody st hst := by
    have hcode : p.code (f :: fs) = body := by rw [code, Function.statements, hbody]
    refine sites_of_mem_ownList ?_ (hcode ▸ hst)
    rintro _ ⟨⟩
    exact hf f (List.mem_singleton_self f)
  leave hs := hs.pop

variable {h : Host} {fuel : Nat} {profile : Profile} {clock : Clock} {m : Evaluation.Moment}

/-- At every moment of a run, and after it, scopes have the names that the analysis knows of. -/
theorem scoped_of_reaches (hm : Evaluation.Reaches h fuel p (.start h profile clock) m) :
    p.Scoped m.calls m.session ∧ p.Scoped m.calls (m.after h) ∧ (p.scopeLaw h).Permits m.calls m.task := by
  have hcode : (p.scopeLaw h).PermitsBlock [] p.statements :=
    fun _ hst => sites_of_mem_ownList (fun _ hf => nomatch hf) hst
  have hstart : ∀ t, Evaluation.applyBlocks p.personalityBlocks (.start h profile clock) = (.ok (), t) →
      p.Scoped [] t := by
    intro t happly
    obtain ⟨q, rfl⟩ := Evaluation.exists_profile_of_applyBlocks happly
    exact Scoped.start h q clock
  have hlawful := (p.scopeLaw h).holds hstart hcode hm
  exact ⟨hlawful.1, Evaluation.Law.keeps_after hlawful, hlawful.2⟩

end Program

/-! ### Unresolved identifiers -/

namespace Analysis

variable {p : Program} {i : Identifier} {function : String}

theorem mem_functionDiagnostics {globals : List String} {d : FunctionDecl} :
    ⟨.unresolvedIdentifier i.name function, i.place⟩ ∈ functionDiagnostics globals d ↔
      d.name = function ∧ i ∈ unresolved globals d := by
  have hbody : ⟨.unresolvedIdentifier i.name function, i.place⟩ ∉
      (if d.body.isEmpty then [⟨.emptyFunctionBody d.name, d.place⟩] else [] : List Diagnostic) := by
    split <;> simp
  have htype : ⟨.unresolvedIdentifier i.name function, i.place⟩ ∉ returnTypeDiagnostics d := by
    unfold returnTypeDiagnostics
    split
    · simp
    · rw [List.mem_append, not_or]
      constructor
      all_goals
        split <;> simp
  have hparams : ⟨.unresolvedIdentifier i.name function, i.place⟩ ∉
      (unusedParams d).map fun p => (⟨.unusedParameter p.name d.name, d.place⟩ : Diagnostic) := by
    simp
  obtain ⟨name, place⟩ := i
  rw [functionDiagnostics, List.mem_append, List.mem_append, List.mem_append, List.mem_map]
  constructor
  · rintro (((h | h) | ⟨j, hj, heq⟩) | h)
    · exact absurd h hbody
    · exact absurd h htype
    · cases heq
      exact ⟨rfl, hj⟩
    · exact absurd h hparams
  · rintro ⟨rfl, hi⟩
    exact .inl (.inr ⟨_, hi, rfl⟩)

/-- An identifier is reported for the functions in whose bodies it is used and not known. -/
theorem mem_unresolved : ⟨.unresolvedIdentifier i.name function, i.place⟩ ∈ (analyze p).diagnostics ↔
    ∃ d ∈ Stmt.functions p.statements, d.name = function ∧ i ∈ unresolved (Stmt.bindings p.statements) d := by
  rw [mem_diagnostics (c := .functions) rfl, diagnosticsOf, List.mem_flatMap]
  exact exists_congr fun d => and_congr_right fun _ => mem_functionDiagnostics

/-- Names that are used at places of their own are used in one function only. -/
theorem eq_of_mem_uses (hplaces : (Stmt.listPlaces p.statements).Nodup) {d e : FunctionDecl}
    (hd : d ∈ Stmt.functions p.statements) (he : e ∈ Stmt.functions p.statements) (hid : i ∈ Stmt.uses d.body)
    (hie : i ∈ Stmt.uses e.body) : d = e := by
  have hbodies := List.nodup_flatMap.1 (List.Nodup.of_append_right ((Stmt.listPlaces_perm _).nodup_iff.1 hplaces))
  have hsymm : Std.Symm (Function.onFun List.Disjoint fun d : FunctionDecl => (Stmt.uses d.body).map (·.place)) :=
    ⟨fun _ _ h _ ha hb => h hb ha⟩
  by_contra hne
  exact hbodies.2.forall hd he hne (List.mem_map_of_mem hid) (List.mem_map_of_mem hie)

theorem not_mem_uses (hplaces : (Stmt.listPlaces p.statements).Nodup) {d : FunctionDecl}
    (hd : d ∈ Stmt.functions p.statements) (hi : i ∈ Stmt.uses d.body) : i ∉ Stmt.uses p.statements := by
  intro hout
  refine List.disjoint_of_nodup_append ((Stmt.listPlaces_perm _).nodup_iff.1 hplaces) (List.mem_map_of_mem hout) ?_
  exact List.mem_flatMap.2 ⟨d, hd, List.mem_map_of_mem hi⟩

end Analysis

namespace Program

variable {p : Program} {h : Host} {fuel : Nat} {profile : Profile} {clock : Clock} {m : Evaluation.Moment}

/-- A name that is used in a call is not bound if the analysis reports it. -/
theorem Scoped.lookup?_of_unresolved {f : Function} {fs : List Function} {s : Session} (hs : p.Scoped (f :: fs) s)
    {d : FunctionDecl} (hd : d.Makes f) {i : Identifier} (hi : i ∈ Analysis.unresolved (Stmt.bindings p.statements) d) :
    s.lookup? i.name = none := by
  obtain ⟨-, hknown⟩ := List.mem_filter.1 hi
  simp only [Bool.not_or, Bool.and_eq_true, Bool.not_eq_true', List.contains_eq_mem, decide_eq_false_iff_not,
    List.mem_append, not_or, Option.isSome_eq_false_iff, Option.isNone_iff_eq_none] at hknown
  obtain ⟨⟨hlocal, hglobal⟩, hbuiltin⟩ := hknown
  exact hs.lookup?_eq_none (hd.names ▸ hlocal) hglobal hbuiltin

/-- Scopes only ever have the names that the analysis collects: the global scope those that the top-level
statements bind, the scope of a call the parameters of its function and the names that the body binds. So
an identifier that is reported as unresolved faults whenever it is evaluated. -/
theorem scopes_of_reaches {source : String} {limit : Nat} {ts : List Token} (htokens : tokenize source = .ok ts)
    (hparse : parse limit ts = .ok p) (hm : Evaluation.Reaches h fuel p (.start h profile clock) m) :
    (∀ s ∈ [m.session, m.after h], (∀ e ∈ s.globals, e.1 ∈ Stmt.bindings p.statements) ∧
      List.Forall₂ (fun f scope => ∃ d ∈ Stmt.functions p.statements, d.Makes f ∧ ∀ e ∈ scope, e.1 ∈ Analysis.locals d)
        m.calls s.frames) ∧
    ∀ i function, m.task = .expr (.identifier i) →
      ⟨.unresolvedIdentifier i.name function, i.place⟩ ∈ (analyze p).diagnostics →
      Evaluation.expr h (Evaluation.call h m.fuel) (.identifier i) m.session =
        (.error (.fault (.undefinedVariable i.name)), m.session) := by
  obtain ⟨hbefore, hafter, htask⟩ := scoped_of_reaches hm
  refine ⟨?_, fun i function heq hreport => ?_⟩
  · intro s hs
    have hscoped : p.Scoped m.calls s := by
      rcases List.mem_cons.1 hs with rfl | hs
      · exact hbefore
      · exact List.mem_singleton.1 hs ▸ hafter
    refine ⟨hscoped.globals, hscoped.frames.imp ?_⟩
    rintro f scope ⟨⟨d, hd, hmakes⟩, hscope⟩
    exact ⟨d, hd, hmakes, hmakes.names ▸ hscope⟩
  · obtain ⟨e, he, -, hi⟩ := Analysis.mem_unresolved.1 hreport
    have hie := (List.mem_filter.1 hi).1
    have hplaces := places_nodup_of_parse htokens hparse
    rw [heq] at htask
    have huse := (htask _ (List.mem_cons_self ..)).1 i rfl
    obtain ⟨fuel, calls, task, s⟩ := m
    cases calls with
    | nil => exact absurd huse (Analysis.not_mem_uses hplaces he hie)
    | cons f fs =>
      obtain ⟨d, hd, hmakes⟩ := Scoped.declares hbefore
      rw [code, hmakes.statements] at huse
      obtain rfl := Analysis.eq_of_mem_uses hplaces hd he huse hie
      have hnone := Scoped.lookup?_of_unresolved hbefore hmakes hi
      refine Evaluation.act_error ?_
      rw [Action.lookup, Effect.get_bind_apply, hnone]
      rfl

/-- A function that uses a name which nothing binds, and a call of it. -/
def lostName : Program :=
  ⟨[.function ⟨⟨1, 1⟩, "f", [], none, [.expr ⟨1, 10⟩ (.identifier ⟨"x", ⟨1, 10⟩⟩)]⟩,
    .expr ⟨1, 14⟩ (.call ⟨1, 14⟩ (.identifier ⟨"f", ⟨1, 14⟩⟩) [])]⟩

theorem scopes_of_reaches_lostName : ∃ ts m, tokenize "fn f() \x7b x \x7d f()" = .ok ts ∧ parse 5 ts = .ok lostName ∧
    Evaluation.Reaches {} 1 lostName (.start {} .default none) m ∧ m.task = .expr (.identifier ⟨"x", ⟨1, 10⟩⟩) ∧
    (⟨.unresolvedIdentifier "x" "f", ⟨1, 10⟩⟩ : Diagnostic) ∈ (analyze lostName).diagnostics ∧
    Evaluation.expr {} (Evaluation.call {} m.fuel) (.identifier ⟨"x", ⟨1, 10⟩⟩) m.session =
      (.error (.fault (.undefinedVariable "x")), m.session) := by
  obtain ⟨ts, htokens, hparse⟩ : ∃ ts, tokenize "fn f() \x7b x \x7d f()" = .ok ts ∧ parse 5 ts = .ok lostName :=
    ⟨_, by cbv, by cbv⟩
  have hreport : (⟨.unresolvedIdentifier "x" "f", ⟨1, 10⟩⟩ : Diagnostic) ∈ (analyze lostName).diagnostics := by
    decide +kernel
  have hreaches : ∃ m, Evaluation.Reaches {} 1 lostName (.start {} .default none) m ∧
      m.task = .expr (.identifier ⟨"x", ⟨1, 10⟩⟩) := by
    have hstart : Evaluation.Reaches {} 1 lostName (.start {} .default none) _ := .start rfl
    have hcall := ((hstart.leads (.part (.topRest rfl (by simp)))).leads (.part .topFirst)).leads (.part .expression)
    have hbody := (hcall.leads (.part (.application rfl rfl))).leads (.enter rfl rfl rfl)
    exact ⟨_, (hbody.leads (.part .first)).leads (.part .expression), rfl⟩
  obtain ⟨m, hm, htask⟩ := hreaches
  exact ⟨ts, m, htokens, hparse, hm, htask, hreport, (scopes_of_reaches htokens hparse hm).2 _ _ htask hreport⟩

end Program

end Persona
