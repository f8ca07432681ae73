import Persona.Proofs.Evaluation.Growth
import Persona.Proofs.Machine.Steps

/-! A machine that follows an evaluation.

Where the evaluation has a result, the machine gets to a place that fits the result.
Where the evaluation stops with a fault, the machine stops with the same fault. Where the
evaluation wants more fuel, the machine takes as many steps as there was fuel. And where a
literal is too long, which the machine finds out later, it gets at least to the literal.
Only the operand stack is the machine's own: it may be full before the evaluation gets so
far. And on a spent budget the evaluation stops in front of a `while` loop, which the machine
gets to as well but does not stop at. -/
namespace Persona

/-- The items of every array on the stack can be counted with a float. -/
def Machine.Countable (m : Machine) : Prop :=
  ∀ items, .array items ∈ m.stack.values → items.size < 2 ^ 53

/-- The same was printed and asked in both. -/
structure Session.Agrees (s t : Session) : Prop where
  output : s.output = t.output
  calls : s.calls = t.calls

namespace Simulation

open Machine (Steps Ends step)

/-- The fault of a full operand stack. -/
def overflow (h : Host) : Fault := .limit (.stackSize h.limits.maxStackSize)

variable {α β : Type} {h : Host} {c : Code} {clock : Clock} {k j : Nat} {m m' : Machine} {s t : Session}
  {post : α → Session → Machine → Prop} {post' : β → Session → Machine → Prop}

/-- A `while` loop begins here: the code of a test, a way out over the body and over the jump
behind it, which leads back. -/
def LoopAhead (c : Code) (off : Nat) : Prop :=
  ∃ test body : Nat,
    c.fetch (off + test) = .ok (.jumpIfFalse (body + 3), off + test + 3) ∧
    c.fetch (off + test + 3 + body) =
      .ok (.jump (-(test + 3 + body + 3 : Int)), off + test + 3 + body + 3)

/-- What the machine does from `m` on fits what an evaluation came to: a result for which
`post` holds, a fault, a literal that is too long, a `while` loop for which no time is left, or
too little of the fuel `k`. -/
inductive Meets (h : Host) (c : Code) (clock : Clock) (k : Nat) (m : Machine)
    (post : α → Session → Machine → Prop) : Except Stop α × Session → Prop
  | full {r : Except Stop α × Session} {m' : Machine} :
    Ends h c m (.error (overflow h)) m' → m'.session.Before r.2 → Meets h c clock k m post r
  | done {a : α} {t : Session} {n : Nat} {m' : Machine} :
    Steps h c n m m' → post a t m' → Meets h c clock k m post (.ok a, t)
  | fault {f : Fault} {t : Session} {m' : Machine} :
    Ends h c m (.error f) m' → m'.session.Agrees t → Meets h c clock k m post (.error (.fault f), t)
  | longLiteral {size : Nat} {t : Session} {n : Nat} {m' : Machine} :
    Steps h c n m m' → m'.session.Agrees t → Meets h c clock k m post (.error (.longLiteral size), t)
  | spent {t : Session} {n : Nat} {m' : Machine} :
    clock = some 0 → Steps h c n m m' → LoopAhead c m'.pointer → m'.session.Agrees t →
      Meets h c clock k m post (.error (.fault (.timeout h.limits.executionTimeoutMs)), t)
  | unfinished {t : Session} {m' : Machine} :
    Steps h c k m m' → Meets h c clock k m post (.error .unfinished, t)

theorem Meets.after {r : Except Stop α × Session} {n : Nat} (hsteps : Steps h c n m m')
    (hr : Meets h c clock k m' post r) (hj : j ≤ n + k) : Meets h c clock j m post r := by
  cases hr with
  | full hend hbefore => exact .full (hsteps.ends hend) hbefore
  | done hmore hpost => exact .done (hsteps.trans hmore) hpost
  | fault hend hagrees => exact .fault (hsteps.ends hend) hagrees
  | longLiteral hmore hagrees => exact .longLiteral (hsteps.trans hmore) hagrees
  | spent hclock hmore hahead hagrees => exact .spent hclock (hsteps.trans hmore) hahead hagrees
  | unfinished hmore =>
    obtain ⟨m1, hm1⟩ := (hsteps.trans hmore).take hj
    exact .unfinished hm1

theorem Meets.imp {post' : α → Session → Machine → Prop} {r : Except Stop α × Session}
    (hr : Meets h c clock k m post r) (hpost : ∀ a t m', post a t m' → post' a t m') :
    Meets h c clock k m post' r := by
  cases hr with
  | full hend hbefore => exact .full hend hbefore
  | done hsteps hp => exact .done hsteps (hpost _ _ _ hp)
  | fault hend hagrees => exact .fault hend hagrees
  | longLiteral hsteps hagrees => exact .longLiteral hsteps hagrees
  | spent hclock hsteps hahead hagrees => exact .spent hclock hsteps hahead hagrees
  | unfinished hsteps => exact .unfinished hsteps

/-- From `m` on the machine meets what the evaluation comes to from `s` on, provided that
it can count the items of all arrays if there is time for that. -/
def Follows (h : Host) (c : Code) (clock : Clock) (k : Nat) (m : Machine) (x : Eval α) (s : Session)
    (post : α → Session → Machine → Prop) : Prop :=
  (clock = none → ∀ n m', Steps h c n m m' → m'.Countable) → Meets h c clock k m post (x s)

namespace Follows

variable {x : Eval α}

theorem congr {y : Eval α} (hxy : x s = y t) (hy : Follows h c clock k m y t post) : Follows h c clock k m x s post := by
  intro hm
  rw [hxy]
  exact hy hm

theorem done {a : α} (hx : x s = (.ok a, t)) (hpost : post a t m) : Follows h c clock k m x s post := by
  intro _
  rw [hx]
  exact .done (.none m) hpost

theorem fault {f : Fault} (hx : x s = (.error (.fault f), t)) (hstep : step h c m = (.error f, m'))
    (hagrees : m'.session.Agrees t) : Follows h c clock k m x s post := by
  intro _
  rw [hx]
  exact .fault ⟨0, m, .none m, hstep⟩ hagrees

theorem full (hstep : step h c m = (.error (overflow h), m')) (hbefore : m'.session.Before (x s).2) :
    Follows h c clock k m x s post := fun _ => .full ⟨0, m, .none m, hstep⟩ hbefore

theorem longLiteral {size : Nat} (hx : x s = (.error (.longLiteral size), t))
    (hagrees : m.session.Agrees t) : Follows h c clock k m x s post := by
  intro _
  rw [hx]
  exact .longLiteral (.none m) hagrees

theorem unfinished (hx : x s = (.error .unfinished, t)) : Follows h c clock 0 m x s post := by
  intro _
  rw [hx]
  exact .unfinished (.none m)

theorem spent {m : Machine} (hx : x s = (.error (.fault (.timeout h.limits.executionTimeoutMs)), t))
    (hclock : clock = some 0) (hahead : LoopAhead c m.pointer) (hagrees : m.session.Agrees t) :
    Follows h c clock k m x s post := by
  intro _
  rw [hx]
  exact .spent hclock (.none m) hahead hagrees

/-- Steps in front of what follows; each of them counts. -/
theorem after {n : Nat} (hsteps : Steps h c n m m') (hx : Follows h c clock k m' x s post) (hj : j ≤ n + k) :
    Follows h c clock j m x s post := by
  intro hm
  exact (hx fun hclock i m1 h1 => hm hclock (n + i) m1 (hsteps.trans h1)).after hsteps hj

theorem step (hstep : step h c m = (.ok .running, m')) (hx : Follows h c clock k m' x s post) :
    Follows h c clock k m x s post := hx.after (.one hstep) (Nat.le_add_left k 1)

theorem bind {f : α → Eval β} (hx : Follows h c clock k m x s post) (hgrows : ∀ a, (f a).Grows)
    (hf : ∀ a t m', post a t m' → Follows h c clock k m' (f a) t post') :
    Follows h c clock k m (x >>= f) s post' := by
  intro hm
  have hmeets := hx hm
  rw [Effect.bind_apply]
  cases hr : x s with
  | mk r t =>
    rw [hr] at hmeets
    cases hmeets with
    | full hend hbefore =>
      refine .full hend ?_
      cases r with
      | ok a => exact hbefore.trans (hgrows a t)
      | error e => exact hbefore
    | done hsteps hpost =>
      have hrest := hf _ _ _ hpost fun hclock i m1 h1 => hm hclock _ m1 (hsteps.trans h1)
      exact hrest.after hsteps (Nat.le_add_left ..)
    | fault hend hagrees => exact .fault hend hagrees
    | longLiteral hsteps hagrees => exact .longLiteral hsteps hagrees
    | spent hclock hsteps hahead hagrees => exact .spent hclock hsteps hahead hagrees
    | unfinished hsteps => exact .unfinished hsteps

theorem imp {post' : α → Session → Machine → Prop} (hx : Follows h c clock k m x s post)
    (hpost : ∀ a t m', post a t m' → post' a t m') : Follows h c clock k m x s post' :=
  fun hm => (hx hm).imp hpost

/-- Steps behind what follows, which the evaluation has no part in. -/
theorem next {post' : α → Session → Machine → Prop} (hx : Follows h c clock k m x s post)
    (hf : ∀ a t m', post a t m' → Follows h c clock k m' (pure a) t post') :
    Follows h c clock k m x s post' := by
  have hbind := hx.bind (fun a => Eval.Grows.pure a) hf
  rwa [bind_pure] at hbind

theorem mono (hx : Follows h c clock k m x s post) (hj : j ≤ k) : Follows h c clock j m x s post :=
  hx.after (.none m) (by rwa [Nat.zero_add])

theorem counted (hclock : clock = none) (hx : m.Countable → Follows h c clock k m x s post) :
    Follows h c clock k m x s post := fun hm => hx (hm hclock 0 m (.none m)) hm

end Follows

end Simulation

end Persona
