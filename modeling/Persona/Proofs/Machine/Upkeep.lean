import Persona.Proofs.Machine.Operands
import Persona.Proofs.Value.Hereditary

/-! What instructions keep that look at operands only.

Of an invariant of the machine that says what functions its values hold, most of the work is the same for
each: operands come from the stack and from variables, operations make no functions, and what they give
goes back to the stack. An invariant that allows this is left with what it says of its own, about names,
constants and places in the code. -/
namespace Persona

open Effect (Keeps)

/-- The instruction has to do with operands and nothing else of the machine. -/
def Instruction.OnOperands : Instruction → Bool
  | halt | pushNull | pushTrue | pushFalse | pop | loadBuiltin _ | binOp _ | unOp _ | index | makeArray _ | makeMap _
  | extend | iterInit => true
  | _ => false

namespace Machine

theorem fails_mapOf : ∀ (vs : List Value) (es : List (String × Value)), Fails Fault.Plain (mapOf es vs)
  | [], es => fails_ok _
  | [v], es => by
    rw [mapOf_single]
    exact fails_ok _
  | key :: v :: rest, es => by
    by_cases h : ∃ s, key = .string s
    · obtain ⟨s, rfl⟩ := h
      exact fails_mapOf rest _
    · rw [mapOf_other fun s hs => h ⟨s, hs⟩]
      exact fails_error (plain_type _)

/-- The invariant knows that all functions are of a sort. Other operands with such functions do not change it, nor
do built-ins, personality traits or the count of functions; and it allows the faults that operands cause. -/
structure Upkeep (h : Host) (F : Fault → Prop) (sort : Function → Prop) (I : Machine → Prop) : Prop where
  operands : ∀ {m}, I m → ∀ v ∈ m.stack.values, v.HoldsOnly sort
  session : ∀ {m}, I m → m.session.HoldsOnly sort
  stack : ∀ {m stack}, I m → (∀ v ∈ stack.values, v.HoldsOnly sort) → I { m with stack }
  inert : ∀ pointer stack frames, Session.Inert fun s => I ⟨pointer, stack, frames, s⟩
  profile : ∀ {m profile}, I m → I { m with session := { m.session with profile } }
  made : ∀ {m made}, I m → I { m with session := { m.session with made } }
  scope : ∀ {m}, I m → I { m with session := { m.session with frames := [] :: m.session.frames } }
  logical : ∀ {e}, Value.LogicalOnly e → F e
  extension : ∀ {head tail e}, Value.extend h.limits head tail = .error e → F e
  underflow : F (.code .underflow)
  noIterator : F (.code .noIterator)

namespace Upkeep

variable {h : Host} {F : Fault → Prop} {sort : Function → Prop} {I : Machine → Prop} {c : Code} {next : Nat}

theorem plain (U : Upkeep h F sort I) {e : Fault} (he : e.Plain) : F e := U.logical (.inl he)

/-! ### Operands -/

theorem push (U : Upkeep h F sort I) {v : Value} (hv : v.HoldsOnly sort) :
    Keeps I F (fun _ => True) (Machine.push h v) := by
  refine Keeps.get fun m hm => ?_
  simp only
  split
  · exact Keeps.throw (U.plain (plain_limit _))
  · exact Keeps.modify fun m' hm' => U.stack hm' (List.forall_mem_cons.2 ⟨hv, U.operands hm⟩)

theorem pop (U : Upkeep h F sort I) : Keeps I F (Value.HoldsOnly sort) Machine.pop := by
  refine Keeps.get fun m hm => ?_
  have hstack := U.operands hm
  cases hpop : m.stack.pop? with
  | none => exact Keeps.throw U.underflow
  | some r =>
    obtain ⟨v, stack⟩ := r
    rw [Stack.values_of_pop? hpop] at hstack
    obtain ⟨hv, hrest⟩ := List.forall_mem_cons.1 hstack
    exact (Keeps.modify fun m' hm' => U.stack hm' hrest).bind fun _ _ => Keeps.pure hv

theorem popMany (U : Upkeep h F sort I) (count : Nat) :
    Keeps I F (fun vs => ∀ v ∈ vs, v.HoldsOnly sort) (Machine.popMany count) := by
  refine Keeps.get fun m hm => ?_
  have hstack := U.operands hm
  cases hpop : m.stack.popMany? count with
  | none => exact Keeps.throw U.underflow
  | some r =>
    obtain ⟨vs, stack⟩ := r
    obtain ⟨hvs, hrest⟩ := Stack.mem_of_popMany? hpop
    refine (Keeps.modify fun m' hm' => U.stack hm' fun v hv => hstack v (hrest v hv)).bind ?_
    exact fun _ _ => Keeps.pure fun v hv => hstack v (hvs v hv)

/-! ### Actions -/

theorem act (U : Upkeep h F sort I) {a : Action α} {Q : α → Prop}
    (ha : ∀ pointer stack frames, Keeps (fun s => I ⟨pointer, stack, frames, s⟩) Fault.Plain Q a) :
    Keeps I F Q (Machine.act a) := by
  rintro ⟨pointer, stack, frames, session⟩ hm
  obtain ⟨hsession, hok, herror⟩ := ha pointer stack frames session hm
  exact ⟨hsession, hok, fun e he => U.plain (herror e he)⟩

theorem orFault {x : Except Fault α} {Q : α → Prop} (hx : Fails F x) (hok : ∀ v, x = .ok v → Q v) :
    Keeps I F Q (Machine.act (Action.orFault x)) := by
  intro m hm
  cases x with
  | error e =>
    refine ⟨hm, fun v hv => ?_, fun e' he => ?_⟩
    · cases hv
    · cases he
      exact hx e rfl
  | ok v =>
    refine ⟨hm, fun w hw => ?_, fun e he => ?_⟩
    · cases hw
      exact hok v rfl
    · cases he

theorem checkBudget (U : Upkeep h F sort I) : Keeps I F (fun _ => True) (Machine.act (Action.checkBudget h)) :=
  U.act fun pointer stack frames => Action.plain_checkBudget (U.inert pointer stack frames) h

theorem frame (U : Upkeep h F sort I) : Keeps I F (fun _ => True) (Machine.act (Action.push h)) :=
  U.act fun pointer stack frames => Action.plain_push (U.inert pointer stack frames) (fun _ hs => U.scope hs) h

theorem lookup (U : Upkeep h F sort I) (name : String) :
    Keeps I F (Value.HoldsOnly sort) (Machine.act (Action.lookup name)) := by
  refine U.act fun pointer stack frames => Keeps.get fun s hs => ?_
  split
  · next v hv => exact Keeps.pure ((U.session hs).lookup hv)
  · exact Keeps.throw fun _ h => nomatch h

theorem makeFunction (U : Upkeep h F sort I) (name : String) (params : List String) (body : FunctionBody)
    (hsort : ∀ id, sort ⟨id, params, body⟩) :
    Keeps I F (Value.HoldsOnly sort) (Machine.act (Action.makeFunction name params body)) := by
  refine U.act fun pointer stack frames => Keeps.get fun s _ => ?_
  refine (Keeps.modify fun t ht => U.made (m := ⟨pointer, stack, frames, t⟩) ht).bind fun _ _ => Keeps.pure ?_
  intro g hg
  cases List.mem_singleton.1 hg
  exact hsort _

theorem builtin (U : Upkeep h F sort I) (b : Builtin) {vs : List Value} (hvs : ∀ v ∈ vs, v.HoldsOnly sort) :
    Keeps I F (Value.HoldsOnly sort) (Machine.act (b.call h vs)) := by
  refine U.act fun pointer stack frames s hs => ?_
  obtain ⟨hkept, -, hfaults⟩ := Builtin.plain_call (U.inert pointer stack frames) h b vs s hs
  obtain ⟨-, hresult, -⟩ := Builtin.keeps_call (h := h) b hvs s (U.session hs)
  exact ⟨hkept, hresult, hfaults⟩

theorem applyPersonality (U : Upkeep h F sort I) (entries : List (Trait × Float)) :
    Keeps I F (fun _ => True) (Machine.act (Action.applyPersonality entries)) :=
  U.act fun _ _ _ => Action.plain_applyPersonality (fun _ _ hs => U.profile hs) entries

/-! ### Instructions -/

theorem pushed (U : Upkeep h F sort I) {v : Value} (hv : v.HoldsOnly sort) :
    Keeps I F (fun _ => True) (do Machine.push h v; return Progress.running) :=
  (U.push hv).bind fun _ _ => Keeps.pure trivial

/-- What an operation gives is pushed. -/
theorem computed (U : Upkeep h F sort I) {x : Except Fault Value} (hx : Fails F x)
    (hok : ∀ v, x = .ok v → v.HoldsOnly sort) :
    Keeps I F (fun _ => True) (do Machine.push h (← Machine.act (Action.orFault x)); return Progress.running) :=
  (orFault hx hok).bind fun _ hv => U.pushed hv

theorem onOperands (U : Upkeep h F sort I) {i : Instruction} (hi : i.OnOperands = true) :
    Keeps I F (fun _ => True) (execute h c next i) := by
  have L := Value.hereditary_holdsOnly h sort
  cases i with
  | halt => exact Keeps.pure trivial
  | pushNull => exact U.pushed L.null
  | pushTrue | pushFalse => exact U.pushed (L.bool _)
  | pop => exact U.pop.bind fun _ _ => Keeps.pure trivial
  | loadBuiltin b => exact U.pushed (L.builtin b)
  | binOp op =>
    refine U.pop.bind fun b hb => U.pop.bind fun a ha => U.computed ?_ fun _ => L.binary ha hb
    exact (Value.fails_binary h.limits op a b).imp fun _ => U.logical
  | unOp op =>
    exact U.pop.bind fun a ha => U.computed ((Value.fails_unary op a).imp fun _ => U.plain) fun _ => L.unary ha
  | index =>
    refine U.pop.bind fun key hk => U.pop.bind fun object ho => U.computed ?_ fun _ => L.index ho hk
    exact (Value.fails_index object key).imp fun _ => U.plain
  | makeArray count =>
    have hcheck := (Value.fails_checkArrayLength count h.limits).imp fun _ => U.plain
    refine (orFault hcheck fun _ _ => trivial).bind fun _ _ => (U.popMany count).bind fun vs hvs => U.pushed ?_
    exact Value.holds_items.2 fun v hv => hvs v (List.mem_toArray.1 hv)
  | makeMap count =>
    refine (U.popMany _).bind fun vs hvs => U.computed ?_ fun _ => holds_mapOf hvs
    exact (fails_mapOf vs []).imp fun _ => U.plain
  | extend =>
    exact U.pop.bind fun tail ht => U.pop.bind fun head hh => U.computed (fun _ => U.extension) fun _ => L.extend hh ht
  | iterInit =>
    refine U.pop.bind fun v hv => ?_
    have hitems := (Value.fails_items v).imp fun _ => U.plain
    refine (orFault hitems fun items hi => L.items hv hi).bind fun items hi => ?_
    exact (U.push (Value.holds_items.2 hi)).bind fun _ _ => U.pushed (L.number _)
  | _ => cases hi

/-- A jump backwards looks at the clock first. -/
theorem jump (U : Upkeep h F sort I) {d : Int} (hjump : Keeps I F (fun _ => True) (Machine.jump c next d)) :
    Keeps I F (fun _ => True) (execute h c next (.jump d)) := by
  have hgo : Keeps I F (fun _ => True) (do Machine.jump c next d; return Progress.running) :=
    hjump.bind fun _ _ => Keeps.pure trivial
  unfold execute
  simp only
  split
  · exact U.checkBudget.bind fun _ _ => hgo
  · exact hgo

theorem jumpIfFalse (U : Upkeep h F sort I) {d : Int} (hjump : Keeps I F (fun _ => True) (Machine.jump c next d)) :
    Keeps I F (fun _ => True) (execute h c next (.jumpIfFalse d)) := by
  refine U.pop.bind fun v _ => ?_
  cases v.isTruthy with
  | true => exact Keeps.pure trivial
  | false => exact hjump.bind fun _ _ => Keeps.pure trivial

theorem storeVar (U : Upkeep h F sort I) {idx : Nat} {P : String → Prop} (hname : Keeps I F P (name c idx))
    (hassign : ∀ {m s v}, P s → v.HoldsOnly sort → I m → I { m with session := m.session.assign s v }) :
    Keeps I F (fun _ => True) (execute h c next (.storeVar idx)) := by
  refine hname.bind fun s hs => Keeps.get fun m hm => ?_
  have hstack := U.operands hm
  cases hvalues : m.stack.values with
  | nil => exact Keeps.throw U.underflow
  | cons v rest =>
    rw [hvalues] at hstack
    have hv := hstack v (List.mem_cons_self ..)
    exact (Keeps.modify fun m' hm' => hassign hs hv hm').bind fun _ _ => Keeps.pure trivial

theorem defineVar (U : Upkeep h F sort I) {idx : Nat} {P : String → Prop} (hname : Keeps I F P (name c idx))
    (hdefine : ∀ {m s v}, P s → v.HoldsOnly sort → I m → I { m with session := m.session.define s v }) :
    Keeps I F (fun _ => True) (execute h c next (.defineVar idx)) :=
  hname.bind fun _ hs => U.pop.bind fun _ hv =>
    (Keeps.modify fun _ hm => hdefine hs hv hm).bind fun _ _ => Keeps.pure trivial

/-- The head of a loop gives the next item, or it jumps out of the loop. -/
theorem forNext (U : Upkeep h F sort I) {d : Int} (hjump : Keeps I F (fun _ => True) (Machine.jump c next d)) :
    Keeps I F (fun _ => True) (execute h c next (.forNext d)) := by
  suffices hnext : Keeps I F (fun _ => True) (Machine.forNext h c next d) from
    hnext.bind fun _ _ => Keeps.pure trivial
  refine Keeps.get fun m hm => ?_
  have hdrop (n : Nat) : ∀ w ∈ (m.stack.drop n).values, w.HoldsOnly sort :=
    fun w hw => U.operands hm w (List.mem_of_mem_drop hw)
  simp only
  cases hiterator : iterator? m.stack.values with
  | none => exact Keeps.throw U.noIterator
  | some r =>
    obtain ⟨items, used⟩ := r
    have hitems := Value.holds_items.1 (holds_iterator (U.operands hm) hiterator)
    simp only
    cases hitem : items[used]? with
    | none => exact (Keeps.modify fun m' hm' => U.stack hm' (hdrop 2)).bind fun _ _ => hjump
    | some item =>
      refine U.checkBudget.bind fun _ _ => (Keeps.modify fun m' hm' => U.stack hm' ?_).bind fun _ _ =>
        U.push (hitems item (Array.mem_of_getElem? hitem))
      exact List.forall_mem_cons.2 ⟨fun g hg => absurd hg List.not_mem_nil, hdrop 1⟩

/-! ### Calls -/

/-- A built-in leaves its result; a function that is called gets a scope with its arguments. -/
theorem call (U : Upkeep h F sort I) {argc : Nat} {discard : Bool}
    (hscript : ∀ {g body}, sort g → g.body = .script body → F (.code (.noCompiledBody g.id.name)))
    (henter : ∀ {m g vs entry}, sort g → g.body = .compiled entry → (∀ v ∈ vs, v.HoldsOnly sort) → I m → I { m with
      session := m.session.defineAll (g.params.zip vs)
      frames := ⟨next, m.stack.height, discard⟩ :: m.frames
      pointer := entry }) :
    Keeps I F (fun _ => True) (execute h c next (.call argc discard)) := by
  suffices hcall : Keeps I F (fun _ => True) (Machine.call h next argc discard) from
    hcall.bind fun _ _ => Keeps.pure trivial
  refine (U.popMany argc).bind fun vs hvs => U.pop.bind fun v hv => ?_
  cases v with
  | builtin b =>
    refine (U.builtin b hvs).bind fun result hresult => ?_
    cases discard with
    | true => exact Keeps.pure trivial
    | false => exact U.push hresult
  | function g =>
    have hg : sort g := hv g (List.mem_singleton_self g)
    simp only
    cases hbody : g.body with
    | script body => exact Keeps.throw (hscript hg hbody)
    | compiled entry =>
      simp only
      split
      · exact Keeps.throw (U.plain fun _ h => nomatch h)
      · exact U.frame.bind fun _ _ => Keeps.modify fun m hm => henter hg hbody hvs hm
  | _ => exact Keeps.throw (U.plain fun _ h => nomatch h)

/-- A return ends the scope of the call, or the run. -/
theorem ret (U : Upkeep h F sort I)
    (hleave : ∀ {m f rest}, m.frames = f :: rest → I m → I { m with
      stack := m.stack.truncate f.base
      frames := rest
      session := m.session.pop
      pointer := f.returnTo }) :
    Keeps I F (fun _ => True) (execute h c next .ret) := by
  refine U.pop.bind fun v hv => ?_
  intro m hm
  rw [Effect.get_bind_apply]
  cases hframes : m.frames with
  | nil => exact Keeps.pure trivial m hm
  | cons f rest =>
    have hleft := hleave hframes hm
    simp only
    rw [Effect.modify_bind_apply]
    cases f.discard with
    | true => exact Keeps.pure trivial _ hleft
    | false => exact U.pushed hv _ hleft

end Upkeep

end Machine

end Persona
