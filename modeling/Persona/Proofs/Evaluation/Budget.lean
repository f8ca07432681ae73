import Persona.Proofs.Evaluation.Closed

/-! A budget bounds an evaluation.

Every round of a loop and every call of a function looks at the clock before it takes of the
fuel. So an evaluation with more fuel than looks left comes to an end of its own. -/
namespace Persona

open Effect (Keeps)

namespace Session

/-- At most so many more looks at the clock find the budget unspent. -/
def Budgeted (looks : Nat) (s : Session) : Prop := ∃ k ≤ looks, s.clock = some k

theorem budgeted_tame (looks : Nat) : Session.Tame (Budgeted looks) where
  print _ _ h := h
  call _ _ h := h
  look s clock := by
    rintro ⟨k, hk, hclock⟩ hlook
    rw [hclock] at hlook
    cases k with
    | zero => cases hlook
    | succ k =>
      cases hlook
      exact ⟨k, by omega, rfl⟩
  define s name v := by
    rintro ⟨k, hk, hclock⟩
    exact ⟨k, hk, (s.clock_define name v).trans hclock⟩
  assign s name v := by
    rintro ⟨k, hk, hclock⟩
    exact ⟨k, hk, (s.clock_assign name v).trans hclock⟩
  profile _ _ h := h
  made _ _ h := h

end Session

open Session (Budgeted budgeted_tame)

/-- With fewer looks left than there is fuel the evaluation finishes. -/
def Eval.Timely (fuel : Nat) (x : Eval α) : Prop :=
  ∀ looks < fuel, Keeps (Budgeted looks) (· ≠ .unfinished) (fun _ => True) x

namespace Evaluation

open Eval (Timely Closed)

variable {h : Host} {fuel looks : Nat}

theorem act_bind (a : Action α) (k : α → Action β) : act (a >>= k) = act a >>= fun x => act (k x) := by
  funext s
  unfold act
  rw [Effect.bind_apply, Effect.bind_apply]
  cases a s with
  | mk r t =>
    cases r with
    | ok x => rfl
    | error e => rfl

theorem keeps_act {I : Session → Prop} {Q : α → Prop} {a : Action α} (ha : Keeps I (fun _ => True) Q a) :
    Keeps I (· ≠ .unfinished) Q (act a) := by
  intro s hs
  obtain ⟨hI, hok, -⟩ := ha s hs
  cases hr : a s with
  | mk r t =>
    rw [hr] at hI hok
    cases r with
    | ok x =>
      rw [act_ok hr]
      exact ⟨hI, fun y hy => hok y (by cases hy; rfl), fun e he => nomatch he⟩
    | error e =>
      rw [act_error hr]
      refine ⟨hI, fun y hy => (nomatch hy), fun stop hstop => ?_⟩
      cases hstop
      exact fun hstop => nomatch hstop

/-- What comes after a look has one look less. -/
theorem keeps_look {x : Eval α} (hx : ∀ k < looks, Keeps (Budgeted k) (· ≠ .unfinished) (fun _ => True) x) :
    Keeps (Budgeted looks) (· ≠ .unfinished) (fun _ => True)
      (do act (Action.checkBudget h); x) := by
  rintro s ⟨k, hk, hclock⟩
  cases k with
  | zero =>
    have hspent : act (Action.checkBudget h) s =
        (.error (.fault (.timeout h.limits.executionTimeoutMs)), s) := by
      unfold act Action.checkBudget
      rw [Effect.get_bind_apply, hclock]
      rfl
    rw [Effect.bind_error hspent]
    refine ⟨⟨0, hk, hclock⟩, fun y hy => (nomatch hy), fun stop hstop => ?_⟩
    cases hstop
    exact fun hstop => nomatch hstop
  | succ k =>
    have hlook : act (Action.checkBudget h) s = (.ok (), { s with clock := some k }) := by
      unfold act Action.checkBudget
      rw [Effect.get_bind_apply, hclock]
      rfl
    rw [Effect.bind_ok hlook]
    obtain ⟨⟨k', hk', hclock'⟩, hok, herror⟩ := hx k hk { s with clock := some k } ⟨k, Nat.le_refl k, rfl⟩
    exact ⟨⟨k', by omega, hclock'⟩, hok, herror⟩

theorem timely_closed (fuel : Nat) : Closed fun _ x => Timely fuel x where
  pure _ := fun _ _ => Keeps.pure trivial
  longLiteral _ := fun _ _ => Keeps.throw fun hstop => nomatch hstop
  bind hx hk := fun looks hlooks => (hx looks hlooks).bind fun a _ => hk a looks hlooks
  define name v := fun looks _ => Keeps.modify fun s hs => (budgeted_tame looks).define s name v hs
  assign name v := fun looks _ => Keeps.modify fun s hs => (budgeted_tame looks).assign s name v hs
  act ha := fun looks _ => keeps_act (ha _ (budgeted_tame looks))

/-! ### Loops and calls -/

/-- Every round of a `while` looks at the clock and takes one unit of fuel. -/
theorem timely_whileLoop {test : Eval Value} {body : Eval Flow} (htest : Timely fuel test)
    (hbody : Timely fuel body) {rounds : Nat} (hrounds : rounds ≤ fuel) :
    Timely rounds (whileLoop h test body rounds) := by
  induction rounds with
  | zero => exact fun looks hlooks => absurd hlooks (Nat.not_lt_zero looks)
  | succ rounds ih =>
    intro looks hlooks
    rw [whileLoop_succ]
    refine keeps_look fun k hk => (htest k (by omega)).bind fun v _ => ?_
    have hmore := ih (by omega) k (by omega)
    refine closed_ite (P := fun _ x => Keeps (Budgeted k) (· ≠ .unfinished) (fun _ => True) x) _ ?_
      (Keeps.pure trivial)
    refine (hbody k (by omega)).bind fun flow _ => ?_
    cases flow with
    | next => exact hmore
    | again => exact hmore
    | leave => exact Keeps.pure trivial
    | giveBack v => exact Keeps.pure trivial

theorem keeps_inFrame {I : Session → Prop} {F : Stop → Prop} (hpop : ∀ s, I s → I s.pop) {body : Eval Flow}
    (hbody : Keeps I F (fun _ => True) body) : Keeps I F (fun _ => True) (inFrame body) := by
  intro s hs
  obtain ⟨hI, -, herror⟩ := hbody s hs
  cases hr : body s with
  | mk r t =>
    rw [hr] at hI herror
    have hleft := hpop t hI
    cases r with
    | error e =>
      rw [inFrame_error hr]
      exact ⟨hleft, fun _ hx => (nomatch hx), fun stop hstop => herror stop (by cases hstop; rfl)⟩
    | ok flow =>
      rw [inFrame_ok hr]
      exact ⟨hleft, fun _ _ => trivial, fun e he => nomatch he⟩

/-- A call of a function looks at the clock before the body is run. -/
theorem timely_applyWith {runBody : List Stmt → Eval Flow} (hrun : ∀ body, Timely fuel (runBody body))
    (f : Value) (vs : List Value) : Timely (fuel + 1) (applyWith h runBody f vs) := by
  intro looks hlooks
  have hfault : ∀ f : Fault, Keeps (Budgeted looks) (· ≠ .unfinished) (fun _ : Value => True)
      (throw (.fault f) : Eval Value) := fun f => Keeps.throw fun hstop => nomatch hstop
  cases f with
  | builtin b => exact keeps_act (Action.tame_call h b vs _ (budgeted_tame looks))
  | function g =>
    unfold applyWith
    simp only
    split
    · exact hfault _
    · next body _ =>
      split
      · exact hfault _
      · unfold Action.push
        rw [act_bind, bind_assoc]
        refine keeps_look fun k hk => ?_
        refine Keeps.bind (Q := fun _ => True) (keeps_act ?_) fun _ _ => ?_
        · refine Keeps.get fun s _ => ?_
          simp only
          split
          · exact Keeps.throw trivial
          · exact Keeps.modify fun s hs => hs
        · refine (Keeps.modify fun s hs => (budgeted_tame k).defineAll hs _).bind fun _ _ => ?_
          exact keeps_inFrame (fun s hs => hs) (hrun body k (by omega))
  | _ => exact hfault _

/-- The calls inside a call have one unit of fuel less and at least one look less. -/
theorem timely_call (fuel : Nat) (f : Value) (vs : List Value) : Timely fuel (call h fuel f vs) := by
  induction fuel generalizing f vs with
  | zero => exact fun looks hlooks => absurd hlooks (Nat.not_lt_zero looks)
  | succ fuel ih =>
    refine timely_applyWith (fun body => ?_) f vs
    exact closed_block (timely_closed fuel) ih
      (fun htest hbody => timely_whileLoop htest hbody (Nat.le_refl fuel)) body

theorem timely_program (fuel : Nat) (p : Program) : Timely fuel (program h fuel p) := by
  refine (timely_closed fuel).bind (closed_applyBlocks (timely_closed fuel) _) fun _ => ?_
  refine closed_topLevel (timely_closed fuel) (fun s => ?_) p.statements
  exact closed_stmt (timely_closed fuel) (timely_call fuel)
    (fun htest hbody => timely_whileLoop htest hbody (Nat.le_refl fuel)) s

end Evaluation

/-- A program whose clock ends its budget after some looks has an outcome. -/
theorem Program.exists_interpret (p : Program) (h : Host) (profile : Profile) {looks fuel : Nat}
    (hfuel : looks < fuel) : ∃ o, p.interpret? h fuel (.start h profile (some looks)) = some o := by
  have hkeeps := Evaluation.timely_program (h := h) fuel p looks hfuel (.start h profile (some looks))
    ⟨looks, Nat.le_refl looks, rfl⟩
  unfold interpret?
  cases hr : Evaluation.program h fuel p (.start h profile (some looks)) with
  | mk r t =>
    rw [hr] at hkeeps
    cases r with
    | ok _ => exact ⟨_, rfl⟩
    | error e =>
      cases e with
      | fault f => exact ⟨_, rfl⟩
      | longLiteral size => exact ⟨_, rfl⟩
      | unfinished => exact absurd rfl (hkeeps.2.2 _ rfl)

end Persona
