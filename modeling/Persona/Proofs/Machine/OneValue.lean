import Persona.Proofs.Machine.Compiled
import Persona.Proofs.Machine.Inside

/-! The code of an expression leaves one value.

From wherever a run comes to the code of an expression, the code has a chart of its own, which begins with no
slots and ends with one. The operands that the run came with lie below those slots. The code itself does not
reach down to them, and a call that it makes goes back to it with what was there when the call began. -/
namespace Persona

open Compilation (HasOnly IsStart Shaped Sits hasOnly_append hasOnly_cons hasOnly_entries hasOnly_flatten hasOnly_nil
  hasOnly_segments size)

/-! ### Instructions of expressions -/

/-- The instruction neither returns nor makes a function: expressions have no others. -/
def Instruction.isOfExpression : Instruction → Bool
  | ret | makeFunction .. => false
  | _ => true

namespace Compilation

variable {pool : Pool}

/-- The code has only instructions that expressions have. -/
abbrev OfExpression (code : Code) : Prop := HasOnly (·.isOfExpression = true) code

theorem ofExpression_instr {i : Instruction} (hi : i.isOfExpression = true) : OfExpression [.instr i] :=
  hasOnly_cons.2 ⟨hi, hasOnly_nil⟩

theorem ofExpression_literal (l : Literal) : OfExpression (literalCode pool l) := by
  cases l with
  | bool b => cases b <;> exact ofExpression_instr rfl
  | _ => exact ofExpression_instr rfl

theorem ofExpression_name (name : String) : OfExpression (nameCode pool name) := by
  unfold nameCode
  split
  · exact ofExpression_instr rfl
  · exact ofExpression_instr rfl

mutual

theorem ofExpression_expr : ∀ (e : Expr) {code : Code}, expr pool e = .ok code → OfExpression code
  | .literal l, code, h => by
    cases h
    exact ofExpression_literal l
  | .identifier i, code, h => by
    cases h
    exact ofExpression_name i.name
  | .binary op l r, code, h => by
    by_cases hand : op = .and
    · subst hand
      obtain ⟨left, right, hl, hr, -, rfl⟩ := expr_and h
      have hright : OfExpression (right ++ [.instr (.jump 1), .instr .pushFalse]) :=
        hasOnly_append.2 ⟨ofExpression_expr r hr, hasOnly_cons.2 ⟨rfl, ofExpression_instr rfl⟩⟩
      exact hasOnly_append.2 ⟨ofExpression_expr l hl, hasOnly_cons.2 ⟨rfl, hright⟩⟩
    by_cases hor : op = .or
    · subst hor
      obtain ⟨left, right, hl, hr, -, rfl⟩ := expr_or h
      have hright : OfExpression (.instr .pushTrue :: .instr (.jump (size right)) :: right) :=
        hasOnly_cons.2 ⟨rfl, hasOnly_cons.2 ⟨rfl, ofExpression_expr r hr⟩⟩
      exact hasOnly_append.2 ⟨ofExpression_expr l hl, hasOnly_cons.2 ⟨rfl, hright⟩⟩
    obtain ⟨left, right, hl, hr, rfl⟩ := expr_binary hand hor h
    exact hasOnly_append.2 ⟨ofExpression_expr l hl,
      hasOnly_append.2 ⟨ofExpression_expr r hr, ofExpression_instr rfl⟩⟩
  | .unary op e, code, h => by
    obtain ⟨operand, he, rfl⟩ := expr_unary h
    exact hasOnly_append.2 ⟨ofExpression_expr e he, ofExpression_instr rfl⟩
  | .assign target value, code, h => by
    obtain ⟨valueCode, he, rfl⟩ := expr_assign h
    exact hasOnly_append.2 ⟨ofExpression_expr value he, ofExpression_instr rfl⟩
  | .call place callee arguments, code, h => by
    obtain ⟨-, function, values, hf, hvs, rfl⟩ := expr_call h
    exact hasOnly_append.2 ⟨ofExpression_expr callee hf,
      hasOnly_append.2 ⟨hasOnly_flatten.2 (ofExpression_exprs arguments hvs), ofExpression_instr rfl⟩⟩
  | .array elements, code, h => by
    obtain ⟨values, hvs, rfl⟩ := expr_array h
    exact hasOnly_segments (fun _ => rfl) rfl (ofExpression_exprs elements hvs)
  | .map es, code, h => by
    obtain ⟨values, hvs, rfl⟩ := expr_map h
    exact hasOnly_segments (fun _ => rfl) rfl (ofExpression_entries es hvs)
  | .index object key, code, h => by
    obtain ⟨o, k, ho, hk, rfl⟩ := expr_index h
    exact hasOnly_append.2 ⟨ofExpression_expr object ho,
      hasOnly_append.2 ⟨ofExpression_expr key hk, ofExpression_instr rfl⟩⟩
termination_by structural e => e

theorem ofExpression_exprs : ∀ (es : List Expr) {values : List Code}, exprs pool es = .ok values →
    ∀ v ∈ values, OfExpression v
  | [], values, h => by
    cases h
    exact fun v hv => absurd hv List.not_mem_nil
  | e :: es, values, h => by
    obtain ⟨first, rest, he, hes, rfl⟩ := exprs_cons h
    exact List.forall_mem_cons.2 ⟨ofExpression_expr e he, ofExpression_exprs es hes⟩
termination_by structural es => es

theorem ofExpression_entries : ∀ (es : List (String × Expr)) {values : List Code}, entries pool es = .ok values →
    ∀ v ∈ values, OfExpression v
  | [], values, h => by
    cases h
    exact fun v hv => absurd hv List.not_mem_nil
  | (key, e) :: es, values, h => by
    obtain ⟨first, rest, he, hes, rfl⟩ := entries_cons h
    exact List.forall_mem_cons.2 ⟨hasOnly_cons.2 ⟨rfl, ofExpression_expr e he⟩, ofExpression_entries es hes⟩
termination_by structural es => es

end

end Compilation

/-! ### The chart of an expression -/

/-- A chart of the code from `off` to `stop`, which leaves one value. The code neither returns nor makes a
function. -/
structure Chart.IsOwn (c : Code) (off stop : Nat) (t : Chart) : Prop where
  begins : t off = some ⟨false, []⟩
  ends : t stop = some ⟨false, [.value]⟩
  near : ∀ o s, t o = some s → o ≤ stop
  checks : ∀ o s, t o = some s → o ≠ stop →
    ∃ i, c.fetch o = .ok (i, o + i.size) ∧ t.Checks o s i ∧ i.isOfExpression = true

/-- The code of an expression has a chart of its own wherever it is placed. -/
theorem exists_own {c : Code} {pool : Pool} {e : Expr} {code : Compilation.Code} (he : Compilation.expr pool e = .ok code)
    {stop off : Nat} (hplaced : Simulation.Placed c stop off code) : ∃ t, Chart.IsOwn c off (off + size code) t := by
  have hshaped : Shaped none false [] [.value] code := Compilation.shaped_expr e he []
  obtain ⟨sites, hlength, hsites⟩ := hshaped
  obtain ⟨t, hbears, hstarts⟩ := Compilation.exists_bears off .exit ⟨false, [.value]⟩ hlength
  obtain ⟨hbegins, hsits⟩ := hsites t off hbears
  have hinner : ∀ o s, t o = some s → o = off + size code ∨
      ∃ front i back, code = front ++ .instr i :: back ∧ off + size front = o ∧ t.Checks o s i := by
    intro o s hs
    obtain ⟨k, ⟨front, piece, back, hcode, rfl⟩, rfl⟩ := hstarts o s hs
    rcases List.eq_nil_or_concat back with rfl | ⟨back, last, rfl⟩
    · obtain ⟨rfl, -⟩ := List.append_inj' hcode rfl
      exact .inl rfl
    · rw [List.concat_eq_append, ← List.cons_append, ← List.append_assoc] at hcode
      obtain ⟨rfl, -⟩ := List.append_inj' hcode rfl
      have hsit := hsits.at
      cases piece with
      | exit =>
        obtain ⟨s', hgap, -⟩ := hsit
        cases hgap
      | instr i =>
        obtain ⟨s', hs', hchecks⟩ := hsit
        cases hs.symm.trans hs'
        exact .inr ⟨front, i, back, rfl, rfl, hchecks⟩
  refine ⟨t, hbegins, hbears.stop, fun o s hs => ?_, fun o s hs hne => ?_⟩
  · rcases hinner o s hs with rfl | ⟨front, i, back, rfl, rfl, -⟩
    · exact Nat.le_refl _
    · rw [Compilation.size_append]
      omega
  · rcases hinner o s hs with rfl | ⟨front, i, back, rfl, rfl, hchecks⟩
    · exact absurd rfl hne
    · have hfetch := hplaced.each.at
      refine ⟨i, hfetch, hchecks, Compilation.ofExpression_expr e he i ?_⟩
      exact List.mem_append_right _ (List.mem_cons_self ..)

namespace Machine

variable {p : Bytecode} {c : Code} {t own : Chart} {h : Host} {V : Value → Prop} {stop : Nat} {m a b : Machine}

/-! ### Operands from before -/

theorem Calls.base_le {inFunction : Bool} {frames : List CallFrame} {below : List Value}
    (hcalls : Calls t V inFunction frames below) : ∀ f ∈ frames, f.base ≤ below.length := by
  induction hcalls with
  | none => exact fun f hf => absurd hf List.not_mem_nil
  | call hbase _ _ _ ih =>
    rw [List.length_append] at hbase
    refine List.forall_mem_cons.2 ⟨?_, fun f hf => ?_⟩
    · rw [List.length_append, hbase]
    · rw [List.length_append]
      have := ih f hf
      omega

/-- The machine evaluates an expression that `m` began: it stands where the expression's own chart has its
operands above those of `m`, or in a call that the expression has made, below which they are kept. -/
inductive Evaluates (own : Chart) (V : Value → Prop) (m a : Machine) : Prop
  | here {σ : List Slot} : own a.pointer = some ⟨false, σ⟩ →
    Filling V a.pointer m.frames m.stack.values σ a → Evaluates own V m a
  | calls {f : CallFrame} {inner : List CallFrame} {σ : List Slot} {upper above : List Value} :
    a.frames = inner ++ f :: m.frames → a.stack.values = upper ++ (above ++ m.stack.values) →
    f.base = (above ++ m.stack.values).length →
    own.Takes f.returnTo false ((if f.discard then [] else [.value]) ++ σ) → List.Forall₂ (Slot.Fits V) σ above →
    Evaluates own V m a

theorem Evaluates.of_takes {o : Nat} {σ : List Slot} (htakes : own.Takes o false σ)
    (ha : Filling V o m.frames m.stack.values σ a) : Evaluates own V m a := by
  obtain ⟨τ, hcovers, ht⟩ := htakes
  obtain ⟨rfl, hframes, ⟨above, hvalues, hfits⟩, hsession⟩ := ha
  exact .here ht ⟨rfl, hframes, ⟨above, hvalues, Slot.fits_of_covers hcovers hfits⟩, hsession⟩

/-- What goes on in the expression itself or enters a call from there. -/
theorem Onward.evaluates (hb : Onward t own V false m.frames m.stack.values b) : Evaluates own V m b := by
  cases hb with
  | stays htakes hb => exact .of_takes htakes hb
  | enters _ hbase htakes hfits hb =>
    obtain ⟨-, hframes, ⟨top, hvalues, -⟩, -⟩ := hb
    exact .calls (show b.frames = [] ++ _ :: m.frames from hframes) hvalues hbase htakes hfits

/-- A step of a call that the expression has made stays in it, or goes back to the expression. -/
theorem evaluates_of_calls (hstands : Stands t V a) (hsound : t.Sound (.ofBytecode p)) (L : Law h p t V)
    {f : CallFrame} {inner : List CallFrame} {σ : List Slot} {upper above : List Value}
    (hframes : a.frames = inner ++ f :: m.frames) (hvalues : a.stack.values = upper ++ (above ++ m.stack.values))
    (hbase : f.base = (above ++ m.stack.values).length)
    (htakes : own.Takes f.returnTo false ((if f.discard then [] else [.value]) ++ σ))
    (hfits : List.Forall₂ (Slot.Fits V) σ above) (hstep : step h (.ofBytecode p) a = (.ok .running, b)) :
    Evaluates own V m b := by
  obtain ⟨s, below, hs, hcalls, hfilling⟩ := hstands
  have hmem : f ∈ a.frames := hframes ▸ List.mem_append_right _ (List.mem_cons_self ..)
  have hle := hcalls.base_le f hmem
  obtain ⟨top, hbelow, -⟩ := hfilling.operands
  -- what the call found is at the bottom of what no step of the present call reaches
  obtain ⟨lower, rfl⟩ : ∃ lower, below = lower ++ (above ++ m.stack.values) := by
    have hkept : (above ++ m.stack.values) <:+ a.stack.values := ⟨upper, hvalues.symm⟩
    obtain ⟨lower, hlower⟩ := List.suffix_of_suffix_length_le hkept ⟨top, hbelow.symm⟩ (hbase ▸ hle)
    exact ⟨lower, hlower.symm⟩
  have hkeeps : ∀ (inner' : List CallFrame) (below' : List Value) {o : Nat} {τ : List Slot},
      Filling V o (inner' ++ f :: m.frames) (below' ++ (lower ++ (above ++ m.stack.values))) τ b →
        Evaluates own V m b := by
    intro inner' below' o τ hb
    obtain ⟨-, hb, ⟨top, hvalues, -⟩, -⟩ := hb
    rw [← List.append_assoc, ← List.append_assoc] at hvalues
    exact .calls hb hvalues hbase htakes hfits
  rcases ((fills_stands L hsound hs hcalls hfilling) a rfl).1 _ _ hstep rfl with honward | hback
  · cases honward with
    | stays _ hb => exact hkeeps inner [] (hframes ▸ hb)
    | @enters g _ _ above' _ _ _ _ hb =>
      rw [hframes] at hb
      exact hkeeps (g :: inner) above' hb
  · obtain ⟨g, rest, hg, hb⟩ := hback
    have hown := hcalls.base_eq hg
    rw [hframes] at hg
    cases inner with
    | nil =>
      cases hg
      obtain rfl : lower = [] := by
        simp only [hbase, List.length_append] at hown
        exact List.length_eq_zero_iff.1 (by omega)
      rw [List.nil_append] at hb
      exact .of_takes htakes (hb.lower hfits)
    | cons g inner =>
      cases hg
      exact hkeeps inner [] hb

/-- Evaluation goes on step by step. -/
theorem evaluates_step (hstands : Stands t V a) (hsound : t.Sound (.ofBytecode p)) (L : Law h p t V)
    (hconstant : ∀ k : Constant, V k.value) {off : Nat} (hown : own.IsOwn (.ofBytecode p) off stop)
    (ha : Evaluates own V m a) (hbehind : ¬ Behind stop m a) (hstep : step h (.ofBytecode p) a = (.ok .running, b)) :
    Evaluates own V m b := by
  cases ha with
  | calls hframes hvalues hbase htakes hfits =>
    exact evaluates_of_calls hstands hsound L hframes hvalues hbase htakes hfits hstep
  | here hs ha =>
    have hne : a.pointer ≠ stop := fun heq => hbehind ⟨heq, ha.calls⟩
    obtain ⟨i, hfetch, hchecks, hexpression⟩ := hown.checks _ _ hs hne
    have hret : i ≠ .ret := fun hi => by rw [hi] at hexpression; cases hexpression
    have hmade : ∀ fn params entry, i = .makeFunction fn params entry → t entry = some .entry :=
      fun _ _ _ hi => by rw [hi] at hexpression; cases hexpression
    have hexecute : Fills p (Filling V (a.pointer + i.size) m.frames m.stack.values _)
        (fun r b => r = .running → Onward t own V false m.frames m.stack.values b)
        (execute h (.ofBytecode p) (a.pointer + i.size) i) :=
      fills_onward L hchecks rfl (fun _ k _ _ => hconstant k) hret hmade
    exact ((fills_step hfetch ha hexecute a rfl).1 _ _ hstep rfl).evaluates

/-! ### Runs -/

theorem Evaluates.near {off : Nat} (hown : own.IsOwn c off stop) (ha : Evaluates own V m a)
    (hframes : a.frames = m.frames) : a.pointer ≤ stop := by
  cases ha with
  | here hs _ => exact hown.near _ _ hs
  | @calls f inner _ _ _ hcalls _ _ _ _ =>
    rw [hcalls] at hframes
    have := congrArg List.length hframes
    simp at this
    omega

/-- Behind the expression there is one value more on the stack. -/
theorem Evaluates.leaves {off : Nat} (hown : own.IsOwn c off stop) (ha : Evaluates own V m a)
    (hbehind : Behind stop m a) : ∃ v, a.stack = m.stack.push v := by
  obtain ⟨hpointer, hframes⟩ := hbehind
  cases ha with
  | here hs ha =>
    rw [hpointer, hown.ends] at hs
    cases hs
    obtain ⟨above, hvalues, hfits⟩ := ha.operands
    obtain ⟨v, rfl⟩ := List.length_eq_one_iff.1 hfits.length_eq.symm
    exact ⟨v, Stack.ext_values hvalues⟩
  | @calls f inner _ _ _ hcalls _ _ _ _ =>
    rw [hcalls] at hframes
    have := congrArg List.length hframes
    simp at this
    omega

theorem Inside.onChart (hsound : t.Sound (.ofBytecode p)) (hm : OnChart t m) (ha : Inside h (.ofBytecode p) stop m a) :
    OnChart t a := by
  obtain ⟨n, hsteps⟩ := ha.steps
  exact onChart_steps hsound hm hsteps

theorem Inside.evaluates (hsound : t.Sound (.ofBytecode p)) (hm : OnChart t m)
    (hown : own.IsOwn (.ofBytecode p) m.pointer stop) (ha : Inside h (.ofBytecode p) stop m a) :
    Evaluates own (Value.Holds (FunctionBody.OnChart t)) m a := by
  induction ha with
  | enters => exact .here hown.begins ⟨rfl, rfl, ⟨[], rfl, .nil⟩, hm.session⟩
  | goesOn ha hbehind hstep ih =>
    exact evaluates_step (ha.onChart hsound hm) hsound (law_onChart h p t) holds_constant hown ih hbehind hstep

/-- The code of an expression leaves one value on the stack that it finds, if it gets to its end. -/
theorem carries_expr {N T : Prop} {pool : Pool} {e : Expr} {code : Compilation.Code} {k top : Nat}
    (hsound : t.Sound (.ofBytecode p)) (hm : OnChart t m) (he : Compilation.expr pool e = .ok code)
    (hplaced : Simulation.Placed (.ofBytecode p) 0 m.pointer code)
    (hneeds : N → Needs h (.ofBytecode p) (m.pointer + size code) k m) (htop : m.stack.height + k ≤ top)
    (hends : T → ∃ b, Inside h (.ofBytecode p) (m.pointer + size code) m b ∧ Behind (m.pointer + size code) m b) :
    Carries h (.ofBytecode p) N T top (m.pointer + size code) m fun b => ∃ v, b.stack = m.stack.push v := by
  obtain ⟨own, hown⟩ := exists_own he hplaced
  refine ⟨fun a ha => (ha.evaluates hsound hm hown).near hown, fun hN a ha => ?_,
    fun b hb => (hb.evaluates hsound hm hown).leaves hown, fun hT => .inl (hends hT)⟩
  obtain ⟨hheight, hroom⟩ := hneeds hN
  exact ⟨Nat.le_trans (hheight a ha) htop, fun hmax => hroom (Nat.le_trans htop hmax) a ha⟩

end Machine

end Persona
