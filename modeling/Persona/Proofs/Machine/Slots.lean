import Persona.Proofs.Instruction.Slots
import Persona.Proofs.Machine.Calm
import Persona.Proofs.Machine.Steps
import Persona.Proofs.Value.Hereditary

/-! A machine on a chart.

A machine is on a chart where its pointer has a site, its operands above the base of the call
fill the slots of the site, and every call around it goes on at a site when it returns. A
step from there leads to a machine on the chart, and has none of the faults that missing or
wrong operands can cause. A hereditary property that the constants on the chart have is kept on
the way by all values of the run. -/
namespace Persona

open Effect (Keeps Leads)

/-- A function that is entered where the chart has functions entered. -/
def FunctionBody.OnChart (t : Chart) : FunctionBody → Prop
  | compiled entry => t entry = some .entry
  | script _ => False

/-- No fault that structural checks leave open. -/
def Fault.Checked (p : Bytecode) (e : Fault) : Prop := ∀ c, e = .code c → ¬ c.Excused p

section
variable {p : Bytecode}

theorem Fault.Plain.checked {e : Fault} (h : e.Plain) : e.Checked p := fun c hc => absurd hc (h c)

theorem Fault.Checked.plain {e : Fault} (h : e.Checked p) (hexcused : e.Excused p) : e.Plain :=
  fun c hc => h c hc (hexcused c hc)

theorem checked_code {c : CodeFault} (h : ¬ c.Excused p) : Fault.Checked p (.code c) := by
  intro c' hc
  cases hc
  exact h

end

/-! ### Slots -/

namespace Slot

variable {V : Value → Prop} {s s' : Slot} {v : Value}

/-- A value in a slot. What a loop runs over need not have the property, but its items do. -/
def Fits (V : Value → Prop) : Slot → Value → Prop
  | value, v => V v
  | items, v => V v ∧ ∃ xs, v = .array xs
  | entries, v => V v ∧ ∃ es, v = .map es
  | cursor, v => V v ∧ ∃ x, v = .number x
  | loop, v => ∃ xs, v = .array xs ∧ ∀ x ∈ xs, V x

theorem Fits.holds (hs : s.isOperand = true) (hv : s.Fits V v) : V v := by
  cases s with
  | value => exact hv
  | items | entries | cursor => exact hv.1
  | loop => cases hs

theorem Covers.fits (hs : s.Covers s') (hv : s.Fits V v) : s'.Fits V v := by
  rcases hs with rfl | ⟨rfl, hs⟩
  · exact hv
  · exact hv.holds hs

theorem fits_of_covers {σ τ : List Slot} (hστ : List.Forall₂ Covers σ τ) {vs : List Value}
    (hvs : List.Forall₂ (Fits V) σ vs) : List.Forall₂ (Fits V) τ vs := by
  induction hστ generalizing vs with
  | nil => exact hvs
  | cons hs _ ih =>
    cases hvs with
    | cons hv hvs => exact .cons (hs.fits hv) (ih hvs)

theorem holds_of_fits {σ : List Slot} {vs : List Value} (hσ : σ.all isOperand = true)
    (hvs : List.Forall₂ (Fits V) σ vs) : ∀ v ∈ vs, V v := by
  induction hvs with
  | nil => exact fun v hv => absurd hv List.not_mem_nil
  | cons hv _ ih =>
    obtain ⟨hs, hσ⟩ := Bool.and_eq_true_iff.1 hσ
    exact List.forall_mem_cons.2 ⟨hv.holds hs, ih hσ⟩

end Slot

/-- What holds of all values of a run: a hereditary property that says where functions are
entered, and that the functions and the constants of the program have. -/
structure Machine.Law (h : Host) (p : Bytecode) (t : Chart) (V : Value → Prop) : Prop extends
    Value.Hereditary h V where
  body : ∀ {g}, V (.function g) → g.body.OnChart t
  made : ∀ {id params entry}, t entry = some .entry → V (.function ⟨id, params, .compiled entry⟩)
  constant : ∀ {o s idx next k}, t o = some s → (Code.ofBytecode p).fetch o = .ok (.pushConst idx, next) →
    p.constants[idx]? = some k → V k.value

namespace Machine

open Slot (fits_of_covers holds_of_fits)

variable {p : Bytecode} {t t' : Chart} {h : Host} {V : Value → Prop} {o next : Nat} {s s' : Slot} {frames : List CallFrame}
  {above below : List Value} {σ τ : List Slot} {m : Machine} {v : Value} {c : Code}

/-- At this place in these calls, with values in these slots above the operands below. -/
structure Filling (V : Value → Prop) (pointer : Nat) (frames : List CallFrame) (below : List Value)
    (σ : List Slot) (m : Machine) : Prop where
  place : m.pointer = pointer
  calls : m.frames = frames
  operands : ∃ above, m.stack.values = above ++ below ∧ List.Forall₂ (Slot.Fits V) σ above
  session : m.session.Every V

/-- A result comes with a machine that fits it; a fault is one that checks exclude. -/
abbrev Fills (p : Bytecode) (I : Machine → Prop) (Q : α → Machine → Prop) (x : Exec α) : Prop :=
  Leads I (Fault.Checked p) Q x

/-! ### Operands -/

theorem Filling.withStack (hm : Filling V o frames below σ m) {stack : Stack} {above : List Value}
    (hvalues : stack.values = above ++ below) (hfits : List.Forall₂ (Slot.Fits V) τ above) :
    Filling V o frames below τ { m with stack } :=
  ⟨hm.place, hm.calls, ⟨above, hvalues, hfits⟩, hm.session⟩

/-- Operands that have been below are there like the others. -/
theorem Filling.lower (hm : Filling V o frames (above ++ below) σ m) (hfits : List.Forall₂ (Slot.Fits V) τ above) :
    Filling V o frames below (σ ++ τ) m := by
  obtain ⟨top, hvalues, htop⟩ := hm.operands
  rw [← List.append_assoc] at hvalues
  exact ⟨hm.place, hm.calls, ⟨top ++ above, hvalues, List.rel_append htop hfits⟩, hm.session⟩

theorem fills_push (hv : s.Fits V v) : Fills p (Filling V o frames below σ)
    (fun _ => Filling V o frames below (s :: σ)) (push h v) := by
  refine Leads.get fun m hm => ?_
  simp only
  split
  · exact Leads.throw (plain_limit _).checked
  · refine Leads.modify ?_
    rintro m rfl
    obtain ⟨above, hvalues, hfits⟩ := hm.operands
    have hpushed : (m.stack.push v).values = v :: above ++ below := congrArg (v :: ·) hvalues
    exact hm.withStack hpushed (.cons hv hfits)

theorem fills_pop : Fills p (Filling V o frames below (s :: σ))
    (fun v m => s.Fits V v ∧ Filling V o frames below σ m) pop := by
  refine Leads.get fun m hm => ?_
  obtain ⟨_, hvalues, hfits⟩ := hm.operands
  cases hfits with
  | cons hv hfits =>
    next v above =>
    have hrest : (m.stack.drop 1).values = above ++ below := by
      rw [Stack.values_drop, hvalues]
      rfl
    have hpop : m.stack.pop? = some (v, m.stack.drop 1) :=
      Stack.pop?_eq_some (by rw [hvalues, hrest]; rfl)
    rw [hpop]
    have hgoes : Fills p (· = m) (fun _ => Filling V o frames below σ)
        (modify fun m' => { m' with stack := m.stack.drop 1 } : Exec PUnit) := by
      refine Leads.modify ?_
      rintro _ rfl
      exact hm.withStack hrest hfits
    exact hgoes.bind fun _ => Leads.pure fun _ hm => ⟨hv, hm⟩

theorem fills_popMany {count : Nat} (hcount : count ≤ σ.length)
    (hoperands : (σ.take count).all Slot.isOperand = true) : Fills p (Filling V o frames below σ)
      (fun vs m => ((∀ v ∈ vs, V v) ∧ vs.length = count) ∧ Filling V o frames below (σ.drop count) m)
      (popMany count) := by
  refine Leads.get fun m hm => ?_
  obtain ⟨above, hvalues, hfits⟩ := hm.operands
  have hlength := hfits.length_eq
  have htaken : (above.take count).reverse.length = count := by
    rw [List.length_reverse, List.length_take]
    omega
  have hrest : (m.stack.drop count).values = above.drop count ++ below := by
    rw [Stack.values_drop, hvalues, List.drop_append_of_le_length (by omega)]
  have hall : m.stack.values = (above.take count).reverse.reverse ++ (m.stack.drop count).values := by
    rw [List.reverse_reverse, hrest, hvalues, ← List.append_assoc, List.take_append_drop]
  have hpop := Stack.popMany?_eq_some hall
  rw [htaken] at hpop
  rw [hpop]
  have hgoes : Fills p (· = m) (fun _ => Filling V o frames below (σ.drop count))
      (modify fun m' => { m' with stack := m.stack.drop count } : Exec PUnit) := by
    refine Leads.modify ?_
    rintro _ rfl
    exact hm.withStack hrest (List.forall₂_drop count hfits)
  refine hgoes.bind fun _ => Leads.pure fun _ hm => ⟨⟨fun v hv => ?_, htaken⟩, hm⟩
  exact holds_of_fits hoperands (List.forall₂_take count hfits) v (List.mem_reverse.1 hv)

/-! ### Parts of instructions -/

theorem fills_act {a : Action α} {Q : α → Prop} (ha : Keeps (Session.Every V) Fault.Plain Q a) :
    Fills p (Filling V o frames below σ) (fun v m => Q v ∧ Filling V o frames below σ m) (act a) := by
  intro m hm
  obtain ⟨hsession, hok, herror⟩ := ha m.session hm.session
  refine ⟨fun v m' hm' => ?_, fun e m' hm' => ?_⟩
  · obtain ⟨hv, rfl⟩ := Prod.mk.inj hm'
    exact ⟨hok v hv, hm.place, hm.calls, hm.operands, hsession⟩
  · obtain ⟨he, rfl⟩ := Prod.mk.inj hm'
    exact (herror e he).checked

theorem fills_orFault {x : Except Fault α} {Q : α → Prop} (hx : Fails (Fault.Checked p) x)
    (hok : ∀ v, x = .ok v → Q v) : Fills p (Filling V o frames below σ)
      (fun v m => Q v ∧ Filling V o frames below σ m) (act (Action.orFault x)) := by
  intro m hm
  cases x with
  | error e =>
    refine ⟨fun v m' hm' => ?_, fun e' m' hm' => ?_⟩
    · cases hm'
    · cases hm'
      exact hx e rfl
  | ok v =>
    refine ⟨fun v' m' hm' => ?_, fun e' m' hm' => ?_⟩
    · cases hm'
      exact ⟨hok v rfl, hm⟩
    · cases hm'

theorem fills_constant {I : Machine → Prop} (idx : Nat) :
    Fills p I (fun v m => (∃ k, p.constants[idx]? = some k ∧ v = k.value) ∧ I m) (constant (.ofBytecode p) idx) := by
  unfold constant
  rw [constant?_ofBytecode]
  cases p.constants[idx]? with
  | none => exact Leads.throw (checked_code fun hc => nomatch hc)
  | some k => exact Leads.pure fun m hm => ⟨⟨k, rfl, rfl⟩, hm⟩

theorem fills_name {I : Machine → Prop} (idx : Nat) : Fills p I (fun _ => I) (name c idx) := by
  unfold name
  split
  · exact Leads.pure fun _ hm => hm
  · exact Leads.throw (checked_code fun hc => by cases hc)

theorem fills_names {I : Machine → Prop} (idxs : List Nat) : Fills p I (fun _ => I) (names c idxs) := by
  induction idxs with
  | nil => exact Leads.pure fun _ hm => hm
  | cons idx idxs ih =>
    exact (fills_name idx).bind fun _ => ih.bind fun _ => Leads.pure fun _ hm => hm

theorem fills_traitValues {I : Machine → Prop} (entries : List (Trait × Nat)) :
    Fills p I (fun _ => I) (traitValues (.ofBytecode p) entries) := by
  induction entries with
  | nil => exact Leads.pure fun _ hm => hm
  | cons e entries ih =>
    refine (fills_constant e.2).bind fun v => Leads.given fun _ => ?_
    split
    · exact ih.bind fun _ => Leads.pure fun _ hm => hm
    · exact Leads.throw (checked_code fun hc => nomatch hc)

theorem fills_pushed (hv : s.Fits V v) : Fills p (Filling V o frames below σ)
    (fun _ => Filling V o frames below (s :: σ)) (do push h v; return Progress.running) :=
  (fills_push hv).bind fun _ => Leads.pure fun _ hm => hm

/-- What an operation gives is pushed. -/
theorem fills_computed {x : Except Fault Value} (hx : Fails (Fault.Checked p) x)
    (hok : ∀ v, x = .ok v → s.Fits V v) : Fills p (Filling V o frames below σ)
      (fun _ => Filling V o frames below (s :: σ)) (do
        push h (← act (Action.orFault x))
        return Progress.running) :=
  (fills_orFault hx hok).bind fun _ => Leads.given fun hv => fills_pushed hv

/-- An operation on the operand on top. -/
theorem fills_unary (hs : s.isOperand = true) {f : Value → Except Fault Value} (hfails : ∀ a, Fails (Fault.Checked p) (f a))
    (hok : ∀ {a v}, V a → f a = .ok v → V v) : Fills p (Filling V o frames below (s :: σ))
      (fun _ => Filling V o frames below (.value :: σ)) (do
        let a ← pop
        push h (← act (Action.orFault (f a)))
        return Progress.running) :=
  fills_pop.bind fun a => Leads.given fun ha => fills_computed (s := .value) (hfails a) fun _ => hok (ha.holds hs)

/-- An operation on the two operands on top, of which the second was pushed last. -/
theorem fills_binary (hs : s.isOperand = true) (hs' : s'.isOperand = true) {f : Value → Value → Except Fault Value}
    (hfails : ∀ a b, Fails (Fault.Checked p) (f a b)) (hok : ∀ {a b v}, V a → V b → f a b = .ok v → V v) :
    Fills p (Filling V o frames below (s :: s' :: σ)) (fun _ => Filling V o frames below (.value :: σ)) (do
      let b ← pop
      let a ← pop
      push h (← act (Action.orFault (f a b)))
      return Progress.running) :=
  fills_pop.bind fun b => Leads.given fun hb => fills_pop.bind fun a => Leads.given fun ha =>
    fills_computed (s := .value) (hfails a b) fun _ => hok (ha.holds hs') (hb.holds hs)

theorem fills_storeVar (hs : s.isOperand = true) (idx : Nat) : Fills p (Filling V next frames below (s :: σ))
    (fun _ => Filling V next frames below (s :: σ)) (execute h c next (.storeVar idx)) := by
  refine (fills_name idx).bind fun name => Leads.get fun m hm => ?_
  obtain ⟨_, hvalues, hfits⟩ := hm.operands
  cases hfits with
  | cons hv hfits =>
    rw [hvalues]
    refine Leads.bind (Leads.modify ?_) fun _ => Leads.pure fun _ hm => hm
    rintro _ rfl
    exact ⟨hm.place, hm.calls, hm.operands, hm.session.assign (hv.holds hs) name⟩

theorem fills_defineVar (hs : s.isOperand = true) (idx : Nat) : Fills p (Filling V next frames below (s :: σ))
    (fun _ => Filling V next frames below σ) (execute h c next (.defineVar idx)) := by
  refine (fills_name idx).bind fun name => fills_pop.bind fun v => Leads.given fun hv => ?_
  refine Leads.bind (Leads.modify fun m hm => ?_) fun _ => Leads.pure fun _ hm => hm
  exact ⟨hm.place, hm.calls, hm.operands, hm.session.define (hv.holds hs) name⟩

theorem fills_lookup (hbuiltin : ∀ b, V (.builtin b)) (name : String) : Fills p (Filling V o frames below σ)
    (fun v m => V v ∧ Filling V o frames below σ m) (act (Action.lookup name)) := by
  refine fills_act (Keeps.get fun s hs => ?_)
  split
  · next v hv => exact Keeps.pure (hs.lookup hbuiltin hv)
  · exact Keeps.throw fun _ h => nomatch h

theorem fills_makeFunction (L : Law h p t V) (name : String) (params : List String) {entry : Nat}
    (hentry : t entry = some .entry) : Fills p (Filling V o frames below σ)
      (fun v m => V v ∧ Filling V o frames below σ m)
      (act (Action.makeFunction name params (.compiled entry))) := by
  intro m hm
  refine ⟨fun v m' hm' => ?_, fun e m' hm' => ?_⟩
  · cases hm'
    exact ⟨L.made hentry, hm.place, hm.calls, hm.operands, hm.session⟩
  · cases hm'

theorem fills_applyPersonality (ts : List (Trait × Float)) : Fills p (Filling V o frames below σ)
    (fun _ => Filling V o frames below σ) (act (Action.applyPersonality ts)) :=
  (fills_act (Action.plain_applyPersonality (fun _ _ hs => hs) ts)).imp fun _ _ hm => hm.2

theorem fills_checkBudget : Fills p (Filling V o frames below σ) (fun _ => Filling V o frames below σ)
    (act (Action.checkBudget h)) :=
  (fills_act (Action.plain_checkBudget (Session.inert_every V) h)).imp fun _ _ hm => hm.2

theorem fills_enter : Fills p (Filling V o frames below σ) (fun _ => Filling V o frames below σ)
    (act (Action.push h)) :=
  (fills_act (Action.plain_push (Session.inert_every V) (fun _ hs => hs.push) h)).imp fun _ _ hm => hm.2

/-- The keys and values of a map are those that were on the stack. -/
theorem exists_map_of_mapOf : ∀ (vs : List Value) (es : List (String × Value)), (∀ w ∈ vs, V w) →
    (∀ e ∈ es, V (.string e.1) ∧ V e.2) → mapOf es vs = .ok v →
      ∃ es', v = .map es' ∧ ∀ e ∈ es', V (.string e.1) ∧ V e.2
  | [], es, _, hes, hv => ⟨es, (Except.ok.inj hv).symm, hes⟩
  | [w], es, _, hes, hv => by
    rw [mapOf_single] at hv
    exact ⟨es, (Except.ok.inj hv).symm, hes⟩
  | key :: w :: rest, es, hvs, hes, hv => by
    by_cases hkey : ∃ s, key = .string s
    · obtain ⟨s, rfl⟩ := hkey
      obtain ⟨hs, hvs⟩ := List.forall_mem_cons.1 hvs
      obtain ⟨hw, hvs⟩ := List.forall_mem_cons.1 hvs
      refine exists_map_of_mapOf rest _ hvs (fun e he => ?_) hv
      rcases Keyed.mem_of_mem_insert he with rfl | he
      · exact ⟨hs, hw⟩
      · exact hes e he
    · rw [mapOf_other fun s hs => hkey ⟨s, hs⟩] at hv
      cases hv

theorem exists_array_of_extend {limits : Limits} {xs ys : Array Value}
    (hv : Value.extend limits (.array xs) (.array ys) = .ok v) : ∃ zs, v = .array zs := by
  obtain ⟨-, rfl⟩ := Value.checked_eq_ok hv
  exact ⟨_, rfl⟩

/-! ### Instructions -/

theorem fills_makeArray (L : Law h p t V) {count : Nat} (hcount : count ≤ σ.length)
    (hoperands : (σ.take count).all Slot.isOperand = true) : Fills p (Filling V next frames below σ)
      (fun _ => Filling V next frames below (.items :: σ.drop count)) (execute h c next (.makeArray count)) := by
  have hcheck := (Value.fails_checkArrayLength count h.limits).imp fun _ he => he.checked (p := p)
  refine (fills_orFault hcheck fun _ => Value.checkArrayLength_eq_ok.1).bind fun _ => Leads.given fun hroom => ?_
  refine (fills_popMany hcount hoperands).bind fun vs => Leads.given fun hvs =>
    fills_pushed (s := .items) ⟨?_, vs.toArray, rfl⟩
  exact L.array (fun v hv => hvs.1 v (List.mem_toArray.1 hv)) (by rwa [List.size_toArray, hvs.2])

theorem fills_makeMap (L : Law h p t V) {count : Nat} (hcount : 2 * count ≤ σ.length)
    (hoperands : (σ.take (2 * count)).all Slot.isOperand = true) : Fills p (Filling V next frames below σ)
      (fun _ => Filling V next frames below (.entries :: σ.drop (2 * count))) (execute h c next (.makeMap count)) := by
  refine (fills_popMany hcount hoperands).bind fun vs => Leads.given fun hvs => ?_
  refine fills_computed (s := .entries) ((fails_mapOf vs []).imp fun _ he => he.checked) fun v hv => ?_
  obtain ⟨es, rfl, hes⟩ := exists_map_of_mapOf vs [] hvs.1 (fun e he => absurd he List.not_mem_nil) hv
  exact ⟨L.map hes, es, rfl⟩

theorem fills_extend_items (L : Law h p t V) : Fills p (Filling V next frames below (.items :: .items :: σ))
    (fun _ => Filling V next frames below (.items :: σ)) (execute h c next .extend) := by
  refine fills_pop.bind fun tail => Leads.given fun htail => fills_pop.bind fun head => Leads.given fun hhead => ?_
  obtain ⟨ht, ys, rfl⟩ := htail
  obtain ⟨hh, xs, rfl⟩ := hhead
  refine fills_computed (s := .items) ?_ fun v hv => ⟨L.extend hh ht hv, exists_array_of_extend hv⟩
  exact ((Value.fails_checkArrayLength _ _).imp fun _ he => he.checked).bind fun _ => fails_ok _

theorem fills_extend_entries (L : Law h p t V) : Fills p (Filling V next frames below (.entries :: .entries :: σ))
    (fun _ => Filling V next frames below (.entries :: σ)) (execute h c next .extend) := by
  refine fills_pop.bind fun tail => Leads.given fun htail => fills_pop.bind fun head => Leads.given fun hhead => ?_
  obtain ⟨ht, ys, rfl⟩ := htail
  obtain ⟨hh, xs, rfl⟩ := hhead
  exact fills_computed (s := .entries) (fails_ok _) fun v hv => ⟨L.extend hh ht hv, _, (Except.ok.inj hv).symm⟩

theorem fills_iterInit (L : Law h p t V) (hs : s.isOperand = true) : Fills p (Filling V next frames below (s :: σ))
    (fun _ => Filling V next frames below (.cursor :: .loop :: σ)) (execute h c next .iterInit) := by
  refine fills_pop.bind fun v => Leads.given fun hv => ?_
  have hitems := (Value.fails_items v).imp fun _ he => he.checked (p := p)
  refine (fills_orFault hitems fun items hi => L.items (hv.holds hs) hi).bind fun items => Leads.given fun hi => ?_
  exact (fills_push (s := .loop) ⟨items, rfl, hi⟩).bind fun _ =>
    fills_pushed (s := .cursor) ⟨L.number 0.0, 0.0, rfl⟩

/-- An instruction that goes on behind itself has its effect. -/
theorem fills_straight (L : Law h p t V) {i : Instruction} (hi : i.IsStraight = true) (heffect : i.effect σ = some τ)
    (hconstant : ∀ idx k, i = .pushConst idx → p.constants[idx]? = some k → V k.value) :
    Fills p (Filling V next frames below σ) (fun _ => Filling V next frames below τ)
      (execute h (.ofBytecode p) next i) := by
  obtain ⟨hoperands, hleaves⟩ := Instruction.effect_eq_some.1 heffect
  cases i with
  | halt => cases hleaves
  | pushConst idx =>
    cases hleaves
    refine (fills_constant idx).bind fun v => Leads.given fun hv => ?_
    obtain ⟨k, hk, rfl⟩ := hv
    exact fills_pushed (s := .value) (hconstant idx k rfl hk)
  | pushNull =>
    cases hleaves
    exact fills_pushed (s := .value) L.null
  | pushTrue | pushFalse =>
    cases hleaves
    exact fills_pushed (s := .value) (L.bool _)
  | loadBuiltin b =>
    cases hleaves
    exact fills_pushed (s := .value) (L.builtin b)
  | pop =>
    cases σ with
    | nil => cases hleaves
    | cons s σ =>
      cases hleaves
      exact fills_pop.bind fun _ => Leads.pure fun _ hm => hm.2
  | loadVar idx =>
    cases hleaves
    exact (fills_name idx).bind fun name => (fills_lookup L.builtin name).bind fun v =>
      Leads.given fun hv => fills_pushed (s := .value) hv
  | storeVar idx =>
    cases σ with
    | nil => cases hleaves
    | cons s σ =>
      cases hleaves
      exact fills_storeVar (Bool.and_eq_true_iff.1 hoperands).1 idx
  | defineVar idx =>
    cases σ with
    | nil => cases hleaves
    | cons s σ =>
      cases hleaves
      exact fills_defineVar (Bool.and_eq_true_iff.1 hoperands).1 idx
  | binOp op =>
    have hand : op ≠ .and := by
      rintro rfl
      cases hleaves
    have hor : op ≠ .or := by
      rintro rfl
      cases hleaves
    match σ with
    | [] | [_] => cases op <;> cases hleaves
    | s :: s' :: σ =>
      obtain rfl : τ = .value :: σ := by cases op <;> cases hleaves <;> rfl
      obtain ⟨hs, hrest⟩ := Bool.and_eq_true_iff.1 hoperands
      have hs' : s'.isOperand = true := (Bool.and_eq_true_iff.1 hrest).1
      exact fills_binary hs hs' (fun a b => (Value.plain_binary h.limits hand hor a b).imp fun _ he => he.checked) L.binary
  | unOp op =>
    cases σ with
    | nil => cases hleaves
    | cons s σ =>
      cases hleaves
      have hs : s.isOperand = true := (Bool.and_eq_true_iff.1 hoperands).1
      exact fills_unary hs (fun a => (Value.fails_unary op a).imp fun _ he => he.checked) L.unary
  | index =>
    match σ with
    | [] | [_] => cases hleaves
    | s :: s' :: σ =>
      cases hleaves
      obtain ⟨hs, hrest⟩ := Bool.and_eq_true_iff.1 hoperands
      have hs' : s'.isOperand = true := (Bool.and_eq_true_iff.1 hrest).1
      exact fills_binary hs hs' (fun a b => (Value.fails_index a b).imp fun _ he => he.checked) L.index
  | makeArray count =>
    simp only [Instruction.leaves, Option.ite_none_right_eq_some, Option.some.injEq] at hleaves
    obtain ⟨hcount, rfl⟩ := hleaves
    exact fills_makeArray L hcount hoperands
  | makeMap count =>
    simp only [Instruction.leaves, Option.ite_none_right_eq_some, Option.some.injEq] at hleaves
    obtain ⟨hcount, rfl⟩ := hleaves
    exact fills_makeMap L hcount hoperands
  | extend =>
    rcases Instruction.of_leaves_extend hleaves with ⟨ρ, rfl, rfl⟩ | ⟨ρ, rfl, rfl⟩
    · exact fills_extend_items L
    · exact fills_extend_entries L
  | makeFunction fn params entry => cases hleaves
  | iterInit =>
    cases σ with
    | nil => cases hleaves
    | cons s σ =>
      cases hleaves
      exact fills_iterInit L (Bool.and_eq_true_iff.1 hoperands).1
  | personality entries =>
    cases hleaves
    exact (fills_traitValues entries).bind fun ts => (fills_applyPersonality ts).bind fun _ =>
      Leads.pure fun _ hm => hm
  | call | ret | jump | jumpIfFalse | forNext => cases hi

/-! ### Calls -/

/-- The calls around the present one, in a function or not, and the operands below its base:
each goes on, when it returns, where the chart has its operands and what is returned. -/
inductive Calls (t : Chart) (V : Value → Prop) : Bool → List CallFrame → List Value → Prop
  | none : Calls t V false [] []
  | call {f : CallFrame} {rest : List CallFrame} {inFunction : Bool} {σ : List Slot}
    {above below : List Value} : f.base = (above ++ below).length →
    t.Takes f.returnTo inFunction ((if f.discard then [] else [.value]) ++ σ) →
    List.Forall₂ (Slot.Fits V) σ above → Calls t V inFunction rest below →
    Calls t V true (f :: rest) (above ++ below)

/-- The machine is where the chart has what is on its stack, and its values have the property. -/
def Stands (t : Chart) (V : Value → Prop) (m : Machine) : Prop :=
  ∃ (s : Site) (below : List Value), t m.pointer = some s ∧ Calls t V s.inFunction m.frames below ∧
    Filling V m.pointer m.frames below s.slots m

theorem stands_of_takes {inFunction : Bool} (htakes : t.Takes o inFunction σ)
    (hcalls : Calls t V inFunction frames below) (hm : Filling V o frames below σ m) : Stands t V m := by
  obtain ⟨τ, hcovers, ht⟩ := htakes
  obtain ⟨rfl, rfl, ⟨above, hvalues, hfits⟩, hsession⟩ := hm
  exact ⟨⟨inFunction, τ⟩, below, ht, hcalls, rfl, rfl, ⟨above, hvalues, fits_of_covers hcovers hfits⟩, hsession⟩

/-- Where an instruction of a code leads, with these operands under the slots of the code: to a site
that the chart `t'` of the code has, or to where `t` has a function entered that comes back to one. -/
inductive Onward (t t' : Chart) (V : Value → Prop) (inFunction : Bool) (frames : List CallFrame) (below : List Value)
    (m : Machine) : Prop
  | stays {o : Nat} {σ : List Slot} : t'.Takes o inFunction σ → Filling V o frames below σ m →
    Onward t t' V inFunction frames below m
  | enters {f : CallFrame} {entry : Nat} {σ : List Slot} {above : List Value} : t entry = some .entry →
    f.base = (above ++ below).length → t'.Takes f.returnTo inFunction ((if f.discard then [] else [.value]) ++ σ) →
    List.Forall₂ (Slot.Fits V) σ above → Filling V entry (f :: frames) (above ++ below) [] m →
    Onward t t' V inFunction frames below m

/-- Where a return leads: behind the call, with its value on the operands from before the call. -/
def Back (V : Value → Prop) (frames : List CallFrame) (below : List Value) (m : Machine) : Prop :=
  ∃ f rest, frames = f :: rest ∧ Filling V f.returnTo rest below (if f.discard then [] else [.value]) m

theorem Onward.stands {inFunction : Bool} (hm : Onward t t V inFunction frames below m)
    (hcalls : Calls t V inFunction frames below) : Stands t V m := by
  cases hm with
  | stays htakes hm => exact stands_of_takes htakes hcalls hm
  | enters hentry hbase htakes hfits hm =>
    exact stands_of_takes (Chart.takes_of_site hentry) (.call hbase htakes hfits hcalls) hm

theorem Back.stands {inFunction : Bool} (hm : Back V frames below m) (hcalls : Calls t V inFunction frames below) :
    Stands t V m := by
  obtain ⟨f, rest, hframes, hm⟩ := hm
  cases hcalls with
  | none => cases hframes
  | call _ htakes hfits hcalls =>
    cases hframes
    exact stands_of_takes htakes hcalls (hm.lower hfits)

/-- The innermost call began with the operands below its base. -/
theorem Calls.base_eq {inFunction : Bool} (hcalls : Calls t V inFunction frames below) {f : CallFrame}
    {rest : List CallFrame} (hframes : frames = f :: rest) : f.base = below.length := by
  cases hcalls with
  | none => cases hframes
  | call hbase _ _ _ =>
    cases hframes
    exact hbase

/-! ### Control -/

theorem fills_jump {d : Int} : Fills p (Filling V o frames below σ)
    (fun _ m => ∃ target : Nat, (next : Int) + d = target ∧ Filling V target frames below σ m)
    (jump c next d) := by
  have hfault : Fault.Checked p (.code .jumpTarget) := checked_code fun hc => nomatch hc
  unfold jump
  split
  · next target htarget =>
    split
    · exact Leads.modify fun m hm =>
        ⟨target, Instruction.eq_of_jumpTarget? htarget, rfl, hm.calls, hm.operands, hm.session⟩
    · exact Leads.throw hfault
  · exact Leads.throw hfault

theorem fills_landing {d : Int} {site : Site} (hlands : t'.Lands next d site) :
    Fills p (Filling V o frames below site.slots) (fun _ => Onward t t' V site.inFunction frames below)
      (jump c next d) := by
  refine fills_jump.imp fun _ m hm => ?_
  obtain ⟨target, htarget, hm⟩ := hm
  obtain ⟨target', htarget', ht⟩ := hlands
  obtain rfl : target = target' := by omega
  exact .stays (Chart.takes_of_site ht) hm

/-- A call goes on behind itself, or where the function is entered. -/
theorem fills_call (L : Law h p t V) {argc : Nat} {discard inFunction : Bool} (hargc : argc < σ.length)
    (hoperands : (σ.take (argc + 1)).all Slot.isOperand = true)
    (htakes : t'.Takes next inFunction ((if discard then [] else [.value]) ++ σ.drop (argc + 1))) :
    Fills p (Filling V next frames below σ) (fun _ => Onward t t' V inFunction frames below)
      (call h next argc discard) := by
  rw [List.take_succ_eq_append_getElem hargc, List.all_append, Bool.and_eq_true] at hoperands
  obtain ⟨harguments, hcallee⟩ := hoperands
  refine (fills_popMany (Nat.le_of_lt hargc) harguments).bind fun vs => Leads.given fun hvs => ?_
  rw [List.drop_eq_getElem_cons hargc]
  refine fills_pop.bind fun v => Leads.given fun hfits => ?_
  have hv : V v := hfits.holds (Bool.and_eq_true_iff.1 hcallee).1
  cases v with
  | builtin b =>
    refine (fills_act (L.keeps_call b hvs.1)).bind fun result => Leads.given fun hresult => ?_
    cases discard with
    | true => exact Leads.pure fun m hm => .stays htakes hm
    | false => exact (fills_push (s := .value) hresult).imp fun _ m hm => .stays htakes hm
  | function g =>
    have hg : g.body.OnChart t := L.body hv
    simp only
    cases hbody : g.body with
    | script body =>
      rw [hbody] at hg
      exact hg.elim
    | compiled entry =>
      rw [hbody] at hg
      simp only
      split
      · exact Leads.throw (Fault.Plain.checked fun _ h => nomatch h)
      · refine fills_enter.bind fun _ => Leads.modify fun m hm => ?_
        obtain ⟨-, hframes, ⟨above, hvalues, hfits⟩, hsession⟩ := hm
        have hbase : m.stack.height = (above ++ below).length := by rw [m.stack.height_eq, hvalues]
        have hcalls : (⟨next, m.stack.height, discard⟩ :: m.frames : List CallFrame) =
            ⟨next, m.stack.height, discard⟩ :: frames := by rw [hframes]
        exact .enters hg hbase htakes hfits ⟨rfl, hcalls, ⟨[], hvalues, .nil⟩, hsession.defineAll hvs.1⟩
  | _ => exact Leads.throw (Fault.Plain.checked fun _ h => nomatch h)

/-- A return goes on in the call around, or the run ends. -/
theorem fills_ret (hs : s.isOperand = true) (hbase : ∀ f rest, frames = f :: rest → f.base = below.length) :
    Fills p (Filling V next frames below (s :: σ)) (fun r m => r = .running → Back V frames below m) (ret h) := by
  refine fills_pop.bind fun v => Leads.given fun hv => Leads.get fun m hm => ?_
  obtain ⟨-, hframes, ⟨above, hvalues, hfits⟩, hsession⟩ := hm
  rw [hframes]
  cases frames with
  | nil => exact Leads.pure fun _ _ hr => nomatch hr
  | cons f rest =>
    have hleft : (m.stack.truncate f.base).values = below := by
      rw [hbase f rest rfl]
      exact Stack.values_truncate hvalues
    have hleave : Fills p (· = m) (fun _ => Filling V f.returnTo rest below []) (modify fun m : Machine => { m with
        stack := m.stack.truncate f.base
        frames := rest
        session := m.session.pop
        pointer := f.returnTo } : Exec PUnit) := by
      refine Leads.modify ?_
      rintro _ rfl
      exact ⟨rfl, rfl, ⟨[], hleft, .nil⟩, hsession.pop⟩
    refine hleave.bind fun _ => ?_
    cases hdiscard : f.discard with
    | true => exact Leads.pure fun m hm _ => ⟨f, rest, rfl, by rwa [hdiscard]⟩
    | false =>
      exact (fills_push (s := .value) (hv.holds hs)).bind fun _ =>
        Leads.pure fun m hm _ => ⟨f, rest, rfl, by rwa [hdiscard]⟩

/-- The head of a loop gives the next item, or it drops the iterator and leaves the loop. -/
theorem fills_forNext (L : Law h p t V) {d : Int} {inFunction : Bool}
    (htakes : t' next = some ⟨inFunction, .value :: .cursor :: .loop :: σ⟩)
    (hlands : t'.Lands next d ⟨inFunction, σ⟩) :
    Fills p (Filling V next frames below (.cursor :: .loop :: σ)) (fun _ => Onward t t' V inFunction frames below)
      (forNext h (.ofBytecode p) next d) := by
  refine Leads.get fun m hm => ?_
  obtain ⟨_, hvalues, hfits⟩ := hm.operands
  cases hfits with
  | cons hcursor hfits =>
    cases hfits with
    | cons hitems hfits =>
      next rest =>
      obtain ⟨-, x, rfl⟩ := hcursor
      obtain ⟨items, rfl, hall⟩ := hitems
      have hiterator : iterator? m.stack.values = some (items, Decimal.toWord x) := by
        rw [hvalues]
        rfl
      simp only [hiterator]
      have hdropped : (m.stack.drop 1).values = .array items :: rest ++ below := by
        rw [Stack.values_drop, hvalues]
        rfl
      have hempty : (m.stack.drop 2).values = rest ++ below := by
        rw [Stack.values_drop, hvalues]
        rfl
      suffices hgoes : Fills p (Filling V next frames below (.cursor :: .loop :: σ))
          (fun _ => Onward t t' V inFunction frames below) _ from fun m' hm' => hgoes m' (hm' ▸ hm)
      cases hitem : items[Decimal.toWord x]? with
      | some item =>
        have hput : ∀ y : Float, ((m.stack.drop 1).push (.number y)).values =
            .number y :: .array items :: rest ++ below := fun y => congrArg (Value.number y :: ·) hdropped
        have hadvance : Fills p (Filling V next frames below (.cursor :: .loop :: σ))
            (fun _ => Filling V next frames below (.cursor :: .loop :: σ)) (modify fun m' =>
              { m' with stack := (m.stack.drop 1).push (.number (Decimal.toWord x + 1).toFloat) } : Exec PUnit) :=
          Leads.modify fun m' hm' => hm'.withStack (hput _)
            (.cons ⟨L.number _, _, rfl⟩ (.cons ⟨items, rfl, hall⟩ hfits))
        have hv : V item := hall item (Array.mem_of_getElem? hitem)
        refine fills_checkBudget.bind fun _ => hadvance.bind fun _ => ?_
        exact (fills_push (s := .value) hv).imp fun _ m hm => .stays (Chart.takes_of_site htakes) hm
      | none =>
        have hleave : Fills p (Filling V next frames below (.cursor :: .loop :: σ))
            (fun _ => Filling V next frames below σ)
            (modify fun m' => { m' with stack := m.stack.drop 2 } : Exec PUnit) :=
          Leads.modify fun m' hm' => hm'.withStack hempty hfits
        exact hleave.bind fun _ => fills_landing hlands

/-! ### Steps -/

/-- An instruction that the chart of its code checks goes on there, unless it returns. Functions are
made with entries that `t` has. -/
theorem fills_onward (L : Law h p t V) {i : Instruction} {site : Site} (hchecks : t'.Checks o site i)
    (hsize : next = o + i.size) (hconstant : ∀ idx k, i = .pushConst idx → p.constants[idx]? = some k → V k.value)
    (hret : i ≠ .ret) (hmade : ∀ fn params entry, i = .makeFunction fn params entry → t entry = some .entry) :
    Fills p (Filling V next frames below site.slots)
      (fun r m => r = .running → Onward t t' V site.inFunction frames below m)
      (execute h (.ofBytecode p) next i) := by
  have hgo : ∀ {x : Exec Unit}, Fills p (Filling V next frames below site.slots)
      (fun _ => Onward t t' V site.inFunction frames below) x → Fills p (Filling V next frames below site.slots)
        (fun r m => r = .running → Onward t t' V site.inFunction frames below m)
        (do x; return Progress.running) := fun hx => hx.bind fun _ => Leads.pure fun _ hm _ => hm
  obtain ⟨inFunction, σ⟩ := site
  subst hsize
  cases i with
  | halt => exact Leads.pure fun _ _ hr => nomatch hr
  | ret => exact absurd rfl hret
  | call argc discard =>
    obtain ⟨τ, heffect, htakes⟩ := hchecks
    obtain ⟨hoperands, hleaves⟩ := Instruction.effect_eq_some.1 heffect
    simp only [Instruction.leaves, Option.ite_none_right_eq_some, Option.some.injEq] at hleaves
    obtain ⟨hargc, rfl⟩ := hleaves
    exact hgo (fills_call L hargc hoperands htakes)
  | jump d =>
    unfold execute
    simp only
    split
    · exact fills_checkBudget.bind fun _ => hgo (fills_landing hchecks)
    · exact hgo (fills_landing hchecks)
  | jumpIfFalse d =>
    obtain ⟨-, top, σ, rfl, hnext, hlands⟩ := hchecks
    have htakes : t'.Takes (o + 3) inFunction σ := Chart.takes_of_site hnext
    refine fills_pop.bind fun v => Leads.given fun _ => ?_
    cases v.isTruthy with
    | true => exact Leads.pure fun m hm _ => .stays htakes hm
    | false => exact (fills_landing hlands).bind fun _ => Leads.pure fun _ hm _ => hm
  | forNext d =>
    obtain ⟨-, σ, rfl, hnext, hlands⟩ := hchecks
    exact hgo (fills_forNext L hnext hlands)
  | makeFunction fn params entry =>
    refine (fills_name fn).bind fun name => (fills_names params).bind fun ps => ?_
    refine (fills_makeFunction L name ps (hmade _ _ _ rfl)).bind fun v => Leads.given fun hv => ?_
    exact (fills_pushed (s := .value) hv).imp fun _ m hm _ => .stays hchecks.2 hm
  | _ =>
    obtain ⟨τ, heffect, htakes⟩ := hchecks
    exact (fills_straight L rfl heffect hconstant).imp fun _ m hm _ => .stays htakes hm

/-- An instruction that the chart checks goes on there, or it returns. -/
theorem fills_execute (L : Law h p t V) {i : Instruction} {site : Site} (hchecks : t.Checks o site i)
    (hsize : next = o + i.size) (hconstant : ∀ idx k, i = .pushConst idx → p.constants[idx]? = some k → V k.value)
    (hbase : ∀ f rest, frames = f :: rest → f.base = below.length) :
    Fills p (Filling V next frames below site.slots)
      (fun r m => r = .running → Onward t t V site.inFunction frames below m ∨ Back V frames below m)
      (execute h (.ofBytecode p) next i) := by
  by_cases hret : i = .ret
  · subst hret
    obtain ⟨top, σ, hslots, htop⟩ := hchecks
    rw [hslots]
    exact (fills_ret htop hbase).imp fun _ _ hm hr => .inr (hm hr)
  · have hmade : ∀ fn params entry, i = .makeFunction fn params entry → t entry = some .entry := by
      intro fn params entry hi
      subst hi
      exact hchecks.1
    exact (fills_onward L hchecks hsize hconstant hret hmade).imp fun _ _ hm hr => .inl (hm hr)

/-- A step does what the instruction does that is fetched. -/
theorem fills_step {i : Instruction} {Q : Progress → Machine → Prop}
    (hfetch : (Code.ofBytecode p).fetch o = .ok (i, next)) (hm : Filling V o frames below σ m)
    (hexecute : Fills p (Filling V next frames below σ) Q (execute h (.ofBytecode p) next i)) :
    Fills p (· = m) Q (step h (.ofBytecode p)) := by
  refine Leads.get ?_
  rintro m rfl
  obtain ⟨rfl, hcalls, hoperands, hsession⟩ := hm
  rw [hfetch]
  have hgoto : Fills p (· = m) (fun _ => Filling V next frames below σ) (goto next) := by
    refine Leads.modify ?_
    rintro _ rfl
    exact ⟨rfl, hcalls, hoperands, hsession⟩
  exact hgoto.bind fun _ => hexecute

end Machine

/-- The chart has only instructions that it checks. -/
def Chart.Sound (t : Chart) (c : Code) : Prop :=
  ∀ o s, t o = some s → ∃ i, c.fetch o = .ok (i, o + i.size) ∧ t.Checks o s i

namespace Machine

variable {p : Bytecode} {t : Chart} {h : Host} {V : Value → Prop} {m m' : Machine} {n : Nat}

/-- How many operands belong to the calls around the present one. -/
def base (m : Machine) : Nat :=
  match m.frames with
  | [] => 0
  | f :: _ => f.base

theorem Calls.length_below {inFunction : Bool} {frames : List CallFrame} {below : List Value}
    (hcalls : Calls t V inFunction frames below) (pointer : Nat) (stack : Stack) (session : Session) :
    below.length = base ⟨pointer, stack, frames, session⟩ := by
  cases hcalls with
  | none => rfl
  | call hbase _ _ _ => exact hbase.symm

theorem Stands.session (hm : Stands t V m) : m.session.Every V := by
  obtain ⟨s, below, -, -, hfilling⟩ := hm
  exact hfilling.session

/-- Above the base of its call a machine has as many operands as the chart says. -/
theorem Stands.height_eq (hm : Stands t V m) : m.stack.height = m.base + t.height m.pointer := by
  obtain ⟨s, below, hs, hcalls, -, -, ⟨above, hvalues, hfits⟩, -⟩ := hm
  have hbelow := hcalls.length_below m.pointer m.stack m.session
  have habove := hfits.length_eq
  rw [Chart.height, hs, m.stack.height_eq, hvalues, List.length_append, hbelow, ← habove, Nat.add_comm]
  rfl

/-- An instruction of a machine on a chart finds its operands in the present call. -/
theorem Stands.needs_le (ht : t.Sound (.ofBytecode p)) (hm : Stands t V m) {i : Instruction} {next : Nat}
    (hfetch : (Code.ofBytecode p).fetch m.pointer = .ok (i, next)) : i.needs ≤ t.height m.pointer := by
  obtain ⟨s, -, hs, -⟩ := hm
  obtain ⟨j, hfetch', hchecks⟩ := ht _ _ hs
  rw [hfetch] at hfetch'
  cases hfetch'
  rw [Chart.height, hs]
  exact hchecks.needs_le

/-- Outside of calls the chart says all that is on the stack. -/
theorem Stands.empty (hm : Stands t V m) (hsite : t m.pointer = some ⟨false, []⟩) :
    m.frames = [] ∧ m.stack.values = [] := by
  obtain ⟨s, below, hs, hcalls, -, -, ⟨above, hvalues, hfits⟩, -⟩ := hm
  rw [hsite] at hs
  cases hs
  cases hfits
  generalize hframes : m.frames = frames at hcalls
  cases hcalls
  exact ⟨rfl, hvalues⟩

/-- The arguments of a call have the property when the call begins. -/
theorem Stands.arguments (ht : t.Sound (.ofBytecode p)) (hm : Stands t V m) {argc : Nat} {discard : Bool} {next : Nat}
    (hfetch : (Code.ofBytecode p).fetch m.pointer = .ok (.call argc discard, next)) :
    ∀ v ∈ m.stack.values.take argc, V v := by
  obtain ⟨s, below, hs, -, -, -, ⟨above, hvalues, hfits⟩, -⟩ := hm
  obtain ⟨j, hfetch', hchecks⟩ := ht _ _ hs
  rw [hfetch] at hfetch'
  cases hfetch'
  obtain ⟨τ, heffect, -⟩ := hchecks
  obtain ⟨hfinds, hleaves⟩ := Instruction.effect_eq_some.1 heffect
  simp only [Instruction.leaves, Option.ite_none_right_eq_some] at hleaves
  have hoperands : (s.slots.take (argc + 1)).all Slot.isOperand = true := hfinds
  have hlength := hfits.length_eq
  have htaken : (above ++ below).take argc = above.take argc := List.take_append_of_le_length (by omega)
  rw [List.take_succ_eq_append_getElem hleaves.1, List.all_append, Bool.and_eq_true] at hoperands
  rw [hvalues, htaken]
  exact Slot.holds_of_fits hoperands.1 (List.forall₂_take argc hfits)

/-- A step on the chart goes on there, or it returns. -/
theorem fills_stands (L : Law h p t V) (ht : t.Sound (.ofBytecode p)) {s : Site} {below : List Value}
    (hs : t m.pointer = some s) (hcalls : Calls t V s.inFunction m.frames below)
    (hm : Filling V m.pointer m.frames below s.slots m) :
    Fills p (· = m)
      (fun r m' => r = .running → Onward t t V s.inFunction m.frames below m' ∨ Back V m.frames below m')
      (step h (.ofBytecode p)) := by
  obtain ⟨i, hfetch, hchecks⟩ := ht _ _ hs
  refine fills_step hfetch hm (fills_execute L hchecks rfl (fun idx k hi hk => ?_) fun _ _ => hcalls.base_eq)
  rw [hi] at hfetch
  exact L.constant hs hfetch hk

theorem stands_step (L : Law h p t V) (ht : t.Sound (.ofBytecode p)) :
    Fills p (Stands t V) (fun r m => r = .running → Stands t V m) (step h (.ofBytecode p)) := by
  intro m hm
  obtain ⟨s, below, hs, hcalls, hfilling⟩ := hm
  refine ((fills_stands L ht hs hcalls hfilling).imp fun r m' hm' hr => ?_) m rfl
  rcases hm' hr with honward | hback
  · exact honward.stands hcalls
  · exact hback.stands hcalls

/-- A run that begins on a chart stays on it, and so do its values keep the property. -/
theorem Stands.steps (L : Law h p t V) (ht : t.Sound (.ofBytecode p)) (hm : Stands t V m)
    (hsteps : Steps h (.ofBytecode p) n m m') : Stands t V m' := by
  induction hsteps with
  | none m => exact hm
  | more hstep _ ih => exact ih ((stands_step L ht _ hm).1 _ _ hstep rfl)

/-- A program begins on a chart where its entry has an empty stack. -/
theorem Stands.start (V : Value → Prop) (hentry : t p.entry = some ⟨false, []⟩) (h : Host) (profile : Profile)
    (clock : Clock) : Stands t V (.start p (.start h profile clock)) :=
  ⟨⟨false, []⟩, [], hentry, .none, rfl, rfl, ⟨[], rfl, .nil⟩, Session.every_start V h profile clock⟩

/-! ### Functions on the chart -/

/-- All functions are entered where the chart has functions entered. -/
theorem law_onChart (h : Host) (p : Bytecode) (t : Chart) : Law h p t (Value.Holds (FunctionBody.OnChart t)) where
  toHereditary := Value.hereditary_holdsOnly h fun g => g.body.OnChart t
  body {g} hg := hg g (List.mem_singleton_self g)
  made hentry g hg := by
    cases List.mem_singleton.1 hg
    exact hentry
  constant _ _ _ := holds_constant _

/-- The machine is on the chart. -/
def OnChart (t : Chart) (m : Machine) : Prop := Stands t (Value.Holds (FunctionBody.OnChart t)) m

theorem onChart_steps (ht : t.Sound (.ofBytecode p)) (hm : OnChart t m)
    (hsteps : Steps h (.ofBytecode p) n m m') : OnChart t m' := Stands.steps (law_onChart h p t) ht hm hsteps

theorem OnChart.start (hentry : t p.entry = some ⟨false, []⟩) (h : Host) (profile : Profile) (clock : Clock) :
    OnChart t (.start p (.start h profile clock)) := Stands.start _ hentry h profile clock

/-- From an intact machine on a chart there is no fault of the code. -/
theorem OnChart.plain {is : List (Nat × Instruction)} (hv : p.Valid is) (hintact : m.Intact p is)
    (ht : t.Sound (.ofBytecode p)) (hm : OnChart t m) {e : Fault}
    (hstep : step h (.ofBytecode p) m = (.error e, m')) : e.Plain := by
  have hsafe := (safe_step (h := h) hv m hintact).2.2
  rw [hstep] at hsafe
  exact ((stands_step (law_onChart h p t) ht m hm).2 _ _ hstep).plain (hsafe e rfl)

end Machine

end Persona
