import Persona.Proofs.Simulation.Expression

/-! Loops.

A round of a loop ends where the next one begins, behind the loop, or with a value that a
`return` gives back. The rounds of a `while` are counted by the fuel of the evaluation; the
rounds of a `for` by the items that its iterator has left. -/
namespace Persona.Simulation

open Compilation (Piece Surroundings LoopMarked size loopCode loopCode_ok filled_of_fillExits returnCode
  size_append size_cons size_nil)
open Machine (Steps step deliver)

namespace Linked

variable {L : Linked} {k : Nat}

/-! ### Ways on -/

/-- The value that is given back lies on the stack where the code returns it. -/
def GivesBack (L : Linked) (around : Surroundings) (st : Stack) (frames : List CallFrame) (v : Value)
    (s : Session) (m : Machine) : Prop :=
  ∃ stop off above below, below.values = above ++ st.values ∧
    Placed L.code stop off (returnCode around) ∧ L.Pushes off below frames v s m

/-- Where the machine goes on: behind the statement, behind the loop around it, at the start
of that loop, or at a return. -/
def Goes (L : Linked) (around : Surroundings) (start stop next : Nat) (st : Stack)
    (frames : List CallFrame) : Flow → Session → Machine → Prop
  | .next, s, m => L.At next st frames s m
  | .leave, s, m => around.sinceLoop.isSome = true ∧ L.At stop st frames s m
  | .again, s, m => around.sinceLoop.isSome = true ∧ L.At start st frames s m
  | .giveBack v, s, m => L.GivesBack around st frames v s m

variable {around around' : Surroundings} {start stop next : Nat} {st : Stack}
  {frames : List CallFrame} {flow : Flow} {v : Value} {s : Session} {m : Machine}

theorem Goes.imp (h : L.Goes around start stop next st frames flow s m)
    (hfunction : around.inFunction = around'.inFunction)
    (hloop : around.sinceLoop.isSome = around'.sinceLoop.isSome) :
    L.Goes around' start stop next st frames flow s m := by
  cases flow with
  | next => exact h
  | leave => exact ⟨hloop ▸ h.1, h.2⟩
  | again => exact ⟨hloop ▸ h.1, h.2⟩
  | giveBack v =>
    obtain ⟨inner, off, above, below, hbelow, hplaced, hpushes⟩ := h
    refine ⟨inner, off, above, below, hbelow, ?_, hpushes⟩
    rwa [returnCode, ← hfunction]

/-- What lies under a value that is given back may lie deeper. -/
theorem GivesBack.of_push {w : Value} (h : L.GivesBack around (st.push w) frames v s m) :
    L.GivesBack around st frames v s m := by
  obtain ⟨inner, off, above, below, hbelow, hplaced, hpushes⟩ := h
  refine ⟨inner, off, above ++ [w], below, ?_, hplaced, hpushes⟩
  rw [hbelow, List.append_assoc]
  rfl

/-- The code runs as the evaluation does, wherever it is placed. No time is needed but for what
is in a loop, and that is not run without. -/
def Runs (L : Linked) (k : Nat) (around : Surroundings) (code : Compilation.Code) (x : Eval Flow) : Prop :=
  ∀ ⦃start stop off next : Nat⦄ ⦃st : Stack⦄ ⦃frames : List CallFrame⦄ ⦃s u : Session⦄,
    Placed L.code stop off code → off + size code = next →
    LoopMarked (· = start) around off → (around.sinceLoop.isSome = true → L.clock = none) →
      Twin L.pool L.table L.clock s u →
      Follows L.host L.code L.clock k ⟨off, st, frames, u⟩ x s (L.Goes around start stop next st frames)

end Linked

/-! ### Places of loops -/

/-- Where the parts of a loop are. Its head leads behind it, and a gap of its body to the
tail. -/
structure PlacedLoop (c : Code) (stop off : Nat) (test : Compilation.Code) (exit : Int → Instruction)
    (body tail : Compilation.Code) : Prop where
  placed_test : Placed c stop off test
  fetch_head : c.fetch (off + size test) =
    .ok (exit (size body + 3 + size tail), off + size test + 3)
  placed_body : Placed c (off + size test + 3 + size body + 3) (off + size test + 3) body
  fetch_back : c.fetch (off + size test + 3 + size body) =
    .ok (.jump (-(size test + 3 + size body + 3 : Int)), off + size test + 3 + size body + 3)
  placed_tail : Placed c stop (off + size test + 3 + size body + 3) tail

theorem placedLoop {c : Code} {keyword : String} {place : Coordinate} {stop off : Nat}
    {test body tail code : Compilation.Code} {exit : Int → Instruction} (hexit : ∀ d, (exit d).size = 3)
    (h : loopCode keyword place test exit body tail = .ok code) (hplaced : Placed c stop off code) :
    PlacedLoop c stop off test exit body tail ∧ size code = size test + 3 + size body + 3 + size tail := by
  obtain ⟨filled, hfill, -, -, rfl⟩ := loopCode_ok h
  have hfilled := filled_of_fillExits hfill (off + size test + 3)
  have hsize := hfilled.size_eq
  have hhead := hplaced.right
  have hbody := hhead.tail
  rw [hexit] at hbody
  have hback := hbody.right
  rw [hsize] at hback
  have htail := hback.tail
  have hstop : off + size test + 3 + size body + 3 ≤ c.length := by
    have hend := htail.end_le
    rw [Compilation.size_jump] at hend
    omega
  refine ⟨⟨hplaced.left, hhead.fetch_at rfl ?_, hbody.left.of_filled hfilled hstop hsize,
    hback.fetch_at rfl rfl, htail⟩, ?_⟩
  · rw [hexit]
  · simp only [size_append, size_cons, Compilation.Piece.size_instr, hexit, hsize, Compilation.size_jump]
    omega

section
variable {L : Linked} {k : Nat} {around : Surroundings} {start stop off next : Nat}
  {test body tail : Compilation.Code} {exit : Int → Instruction} {st : Stack}
  {frames : List CallFrame}

/-- A round is over: the machine goes back to the start of the loop, or behind its body. -/
theorem follows_afterRound (hl : PlacedLoop L.code stop off test exit body tail) (hclock : L.clock = none) {inner : Surroundings}
    {more : Eval Flow} {post : Flow → Session → Machine → Prop}
    (hmore : ∀ {s u}, Twin L.pool L.table L.clock s u →
      Follows L.host L.code L.clock k ⟨off, st, frames, u⟩ more s post)
    (hleave : ∀ {s u}, Twin L.pool L.table L.clock s u →
      Follows L.host L.code L.clock k ⟨off + size test + 3 + size body + 3, st, frames, u⟩ (pure .next) s post)
    (hgive : ∀ {v s m}, L.GivesBack inner st frames v s m → post (.giveBack v) s m)
    {flow : Flow} {s : Session} {m : Machine}
    (hgoes : L.Goes inner off (off + size test + 3 + size body + 3) (off + size test + 3 + size body)
      st frames flow s m) :
    Follows L.host L.code L.clock k m (Evaluation.afterRound more flow) s post := by
  cases flow with
  | next =>
    obtain ⟨u, htwin, rfl⟩ := hgoes
    have htarget : ((off + size test + 3 + size body + 3 : Nat) : Int) +
        -(size test + 3 + size body + 3) = off := by omega
    have hend := hl.placed_tail.end_le
    exact (Linked.follows_jump hl.fetch_back htarget (by omega) (.inr hclock) htwin (hmore htwin)).mono
      (Nat.le_add_left k 1)
  | again =>
    obtain ⟨-, u, htwin, rfl⟩ := hgoes
    exact hmore htwin
  | leave =>
    obtain ⟨-, u, htwin, rfl⟩ := hgoes
    exact hleave htwin
  | giveBack v => exact .done rfl (hgive hgoes)

theorem checkBudget_bind {α : Type} {h : Host} {s : Session} (hs : s.clock = none) (f : Unit → Eval α) :
    (Evaluation.act (Action.checkBudget h) >>= f) s = f () s :=
  Effect.bind_ok (Evaluation.act_ok (Action.checkBudget_apply hs h)) f

theorem checkBudget_bind_spent {α : Type} {h : Host} {s : Session} (hs : s.clock = some 0)
    (f : Unit → Eval α) : (Evaluation.act (Action.checkBudget h) >>= f) s =
      (.error (.fault (.timeout h.limits.executionTimeoutMs)), s) :=
  Effect.bind_error (Evaluation.act_error (Action.checkBudget_spent hs h)) f

/-- Every round takes at least one step, so that a `while` loop that runs out of fuel has
taken as many steps as there was fuel. -/
theorem follows_whileLoop (hl : PlacedLoop L.code stop off test .jumpIfFalse body []) {x : Eval Value}
    {y : Eval Flow} (hx : L.Computes k test x) (hy : L.Runs k ⟨around.inFunction, true, some (size test + 3)⟩ body y)
    (hgx : x.Grows) (hgy : y.Grows) (hnext : off + size test + 3 + size body + 3 = next) {fuel : Nat}
    (hfuel : fuel ≤ k) {s u : Session} (htwin : Twin L.pool L.table L.clock s u) :
    Follows L.host L.code L.clock fuel ⟨off, st, frames, u⟩ (Evaluation.whileLoop L.host x y fuel) s
      (L.Goes around start stop next st frames) := by
  subst hnext
  induction fuel generalizing s u with
  | zero => exact .unfinished rfl
  | succ fuel ih =>
    have ih := fun {s u} => ih (s := s) (u := u) (by omega)
    have hgmore := Evaluation.grows_whileLoop (h := L.host) hgx hgy fuel
    have hgtest : ∀ v : Value, (if v.isTruthy then
        y >>= Evaluation.afterRound (Evaluation.whileLoop L.host x y fuel) else pure .next).Grows :=
      fun v => Evaluation.grows_ite (hgy.bind (Evaluation.grows_afterRound hgmore)) (Eval.Grows.pure _)
    rw [Evaluation.whileLoop_succ]
    rcases htwin.still with hclock | hclock
    case inr =>
      -- the evaluation ends here, the machine would go on with the test
      have hahead : LoopAhead L.code off := by
        refine ⟨size test, size body, ?_, hl.fetch_back⟩
        have hhead := hl.fetch_head
        rwa [size_nil, Nat.cast_zero, add_zero] at hhead
      exact .spent (checkBudget_bind_spent (htwin.clock_left.trans hclock) _) hclock hahead
        ⟨htwin.output, htwin.calls⟩
    refine Follows.congr (checkBudget_bind (htwin.clock_left.trans hclock) _) ?_
    refine ((hx hl.placed_test rfl htwin).mono hfuel).bind hgtest ?_
    rintro v s m ⟨w, hw, u, htwin, rfl⟩
    have htarget : ((off + size test + 3 : Nat) : Int) + (size body + 3 + size []) =
        (off + size test + 3 + size body + 3 : Nat) := by
      rw [size_nil]
      omega
    rw [Nat.add_comm fuel 1]
    refine Linked.follows_test hw hl.fetch_head htarget ?_ ?_ ?_
    · exact Nat.le_trans (Nat.le_add_right _ _) hl.placed_tail.end_le
    · intro htruthy
      rw [if_pos htruthy]
      have hloop : LoopMarked (· = off) ⟨around.inFunction, true, some (size test + 3)⟩
          (off + size test + 3) := by
        intro n hn
        cases hn
        exact ⟨off, rfl, by omega⟩
      refine ((hy hl.placed_body rfl hloop (fun _ => hclock) htwin).mono (by omega)).bind
        (Evaluation.grows_afterRound hgmore) ?_
      rintro flow s m hgoes
      refine follows_afterRound hl hclock ih (fun htwin => .done rfl ⟨_, htwin, rfl⟩) ?_ hgoes
      exact fun hgives => hgives
    · intro hfalsy
      rw [hfalsy]
      exact .done rfl ⟨u, htwin, rfl⟩

/-! ### Iterators -/

/-- What a `for` loop does with an item. -/
def round (name : String) (y : Eval Flow) (item : Value) : Eval Flow := do
  modify fun s => s.define name item
  y

theorem grows_round (name : String) {y : Eval Flow} (hgy : y.Grows) (item : Value) :
    (round name y item).Grows :=
  (Eval.Grows.modify fun s => (Session.Before.refl s).define name item).bind fun _ => hgy

/-- The first of the items that are left, and those behind it. -/
theorem first_of_drop {items : Array Value} {used : Nat} {item : Value} {rest : List Value}
    (hrest : items.toList.drop used = item :: rest) :
    items[used]? = some item ∧ items.toList.drop (used + 1) = rest := by
  constructor
  · have hhead := congrArg (fun l : List Value => l[0]?) hrest
    simpa using hhead
  · rw [← List.tail_drop, hrest, List.tail_cons]

/-- Behind the body of a `for` loop the iterator is dropped. -/
theorem follows_dropIterator {o : Nat} (hpops : Placed L.code stop o [.instr .pop, .instr .pop])
    (hnext : o + Instruction.pop.size + Instruction.pop.size = next) {a b : Value} {s u : Session}
    (htwin : Twin L.pool L.table L.clock s u) :
    Follows L.host L.code L.clock k ⟨o, (st.push a).push b, frames, u⟩ (pure .next) s
      (L.Goes around start stop next st frames) := by
  have hfirst := Machine.step_pop (h := L.host) (t := st.push a) (m := ⟨o, (st.push a).push b, frames, u⟩)
    hpops.fetch rfl
  have hsecond := Machine.step_pop (h := L.host) (t := st) (m := ⟨_, st.push a, frames, u⟩)
    (hpops.tail.fetch_at rfl hnext) rfl
  exact .step hfirst (.step hsecond (.done rfl ⟨u, htwin, rfl⟩))

/-- The instruction that binds a name. -/
abbrev Linked.binding (L : Linked) (name : String) : Instruction := .defineVar (L.pool.indexOf (.string name))

/-- The body of a `for` loop, behind the head and the binding of the item. -/
abbrev Linked.inRound (L : Linked) (name : String) (around : Surroundings) : Surroundings :=
  ⟨around.inFunction, true, some (3 + (L.binding name).size)⟩

/-- The head of the loop pushes an item, and the code goes on with its binding. -/
theorem follows_round {name : String} (hname : L.pool.Binds name)
    (hl : PlacedLoop L.code stop off [] .forNext (.instr (L.binding name) :: body) tail) {y : Eval Flow}
    (hy : L.Runs k (L.inRound name around) body y) (hgy : y.Grows) {items : Array Value} {item : Value}
    (hitem : item.HoldsOnly (Known L.pool L.table)) {x : Float} (hfirst : items[Decimal.toWord x]? = some item)
    (hclock : L.clock = none) {s u : Session} (htwin : Twin L.pool L.table L.clock s u) :
    Follows L.host L.code L.clock k ⟨off, (st.push (.array items)).push (.number x), frames, u⟩
      (round name y (item.mapBodies (decompile L.table))) s
      (L.Goes (L.inRound name around) off (off + size [] + 3 + size (.instr (L.binding name) :: body) + 3)
        (off + size [] + 3 + size (.instr (L.binding name) :: body))
        ((st.push (.array items)).push (.number (Decimal.toWord x + 1).toFloat)) frames) := by
  have halike : Alike L.pool L.table (item.mapBodies (decompile L.table)) item := ⟨rfl, hitem⟩
  have hstep := Machine.step_forNext_item (h := L.host) (t := st)
    (m := ⟨off, (st.push (.array items)).push (.number x), frames, u⟩) hl.fetch_head rfl hfirst
    (htwin.clock_eq.trans hclock)
  have hstore := Machine.step_defineVar (h := L.host)
    (m := ⟨off + 3, ((st.push (.array items)).push (.number (Decimal.toWord x + 1).toFloat)).push item,
      frames, u⟩) hl.placed_body.fetch (Linked.constant_string hname.1) (Stack.values_push _ item)
  have hloop : LoopMarked (· = off) (L.inRound name around) (off + 3 + (L.binding name).size) := by
    intro n hn
    cases hn
    exact ⟨off, rfl, by omega⟩
  have hbody := @hy _ _ _ _ ((st.push (.array items)).push (.number (Decimal.toWord x + 1).toFloat))
    frames _ _ hl.placed_body.tail (Nat.add_assoc ..) hloop (fun _ => hclock) (htwin.define halike hname.2)
  exact Linked.follows_push (grows_round name hgy _) htwin hstep (.step hstore (.congr rfl hbody))

/-- The iterator on the stack has the items that are left to the evaluation. -/
theorem follows_forLoop {name : String} (hname : L.pool.Binds name)
    (hl : PlacedLoop L.code stop off [] .forNext (.instr (L.binding name) :: body) tail) {y : Eval Flow}
    (hy : L.Runs k (L.inRound name around) body y) (hgy : y.Grows)
    (hnext : off + 3 + (L.binding name).size + size body + 3 + size tail = next)
    (htail : tail = [.instr .pop, .instr .pop]) {items : Array Value}
    (hitems : (Value.array items).HoldsOnly (Known L.pool L.table)) {rest : List Value} {x : Float} {s u : Session}
    (hrest : items.toList.drop (Decimal.toWord x) = rest) (htwin : Twin L.pool L.table L.clock s u) :
    Follows L.host L.code L.clock k ⟨off, (st.push (.array items)).push (.number x), frames, u⟩
      (Evaluation.forLoop L.host (round name y) (rest.map (Value.mapBodies (decompile L.table)))) s
      (L.Goes around start stop next st frames) := by
  have hend := hl.placed_tail.end_le
  simp only [size_nil, size_cons, Nat.add_zero, Compilation.Piece.size_instr] at hend
  induction rest generalizing x s u with
  | nil =>
    have hnone : items[Decimal.toWord x]? = none := by
      rw [List.drop_eq_nil_iff, Array.length_toList] at hrest
      exact Array.getElem?_eq_none hrest
    have htarget : ((off + 3 : Nat) : Int) +
        ((size (.instr (L.binding name) :: body) : Nat) + 3 + (size tail : Nat)) = next := by
      rw [size_cons, Compilation.Piece.size_instr]
      omega
    have hstep := Machine.step_forNext_end (h := L.host) (t := st)
      (m := ⟨off, (st.push (.array items)).push (.number x), frames, u⟩) hl.fetch_head rfl hnone htarget
      (by omega)
    exact .step hstep (.done rfl ⟨u, htwin, rfl⟩)
  | cons item rest ih =>
    obtain ⟨hfirst, hmore⟩ := first_of_drop hrest
    have hitem := Value.holds_items.1 hitems item (Array.mem_of_getElem? hfirst)
    rw [List.map_cons, Evaluation.forLoop_cons]
    rcases htwin.still with hclock | hclock
    case inr =>
      have hstep := Machine.step_forNext_spent (h := L.host) (t := st)
        (m := ⟨off, (st.push (.array items)).push (.number x), frames, u⟩) hl.fetch_head rfl hfirst
        (htwin.clock_eq.trans hclock)
      exact .fault (checkBudget_bind_spent (htwin.clock_left.trans hclock) _) hstep
        ⟨htwin.output, htwin.calls⟩
    refine .congr (checkBudget_bind (htwin.clock_left.trans hclock) _) (.counted hclock fun hcount => ?_)
    -- the number of used items is exact as a float
    have hword : Decimal.toWord (Decimal.toWord x + 1).toFloat = Decimal.toWord x + 1 := by
      have hsize := hcount items (List.mem_cons_of_mem _ (List.mem_cons_self ..))
      have hlt := (Array.getElem?_eq_some_iff.1 hfirst).1
      exact Decimal.toWord_toFloat (by omega)
    rw [← hword] at hmore
    have hgmore := Evaluation.grows_forLoop (h := L.host) (grows_round name hgy)
      (rest.map (Value.mapBodies (decompile L.table)))
    refine Follows.bind (x := round name y _) (follows_round hname hl hy hgy hitem hfirst hclock htwin)
      (Evaluation.grows_afterRound hgmore) ?_
    rintro flow s m hgoes
    refine follows_afterRound hl hclock (fun htwin => ih hmore htwin) (fun htwin => ?_) ?_ hgoes
    · subst htail
      have hpops := hl.placed_tail
      refine follows_dropIterator hpops ?_ htwin
      simp only [size_nil, size_cons, Compilation.Piece.size_instr] at hnext ⊢
      omega
    · exact fun hgives => hgives.of_push.of_push

end

end Persona.Simulation
