import Mathlib.Logic.Relation
import Persona.Proofs.Builtin.Unframed
import Persona.Proofs.Evaluation.Law

/-! Calls do not touch the scopes below them.

Every call has a scope of its own, and what runs in it can reach this scope and the global one. So at
each moment of a call the scopes that were there when it began are there unchanged, below those of the
call and of the calls that it has made; when it ends, however it ends, they are all there is. -/
namespace Persona

/-- The scopes of calls are those of `s`, with as many more on top of them. -/
def Session.IsAbove (t s : Session) (count : Nat) : Prop :=
  ∃ own, own.length = count ∧ t.frames = own ++ s.frames

namespace Session.IsAbove

variable {s t u : Session} {count : Nat}

theorem refl (s : Session) : s.IsAbove s 0 := ⟨[], rfl, rfl⟩

theorem frames_eq (ht : t.IsAbove s 0) : t.frames = s.frames := by
  obtain ⟨own, hown, hframes⟩ := ht
  rwa [List.eq_nil_of_length_eq_zero hown] at hframes

theorem depth_eq (ht : t.IsAbove s count) : t.depth = count + s.depth := by
  obtain ⟨own, hown, hframes⟩ := ht
  rw [depth, hframes, List.length_append, hown, depth]

theorem of_frames_eq (ht : t.IsAbove s count) (hframes : u.frames = t.frames) : u.IsAbove s count := by
  obtain ⟨own, hown, hs⟩ := ht
  exact ⟨own, hown, hframes.trans hs⟩

theorem push (ht : t.IsAbove s count) : IsAbove { t with frames := [] :: t.frames } s (count + 1) := by
  obtain ⟨own, hown, hframes⟩ := ht
  exact ⟨[] :: own, congrArg (· + 1) hown, congrArg ([] :: ·) hframes⟩

theorem pop (ht : t.IsAbove s (count + 1)) : t.pop.IsAbove s count := by
  obtain ⟨own, hown, hframes⟩ := ht
  cases own with
  | nil => cases hown
  | cons scope own => exact ⟨own, Nat.succ.inj hown, congrArg List.tail hframes⟩

/-- What is defined in a call is defined in its own scope. -/
theorem define (ht : t.IsAbove s (count + 1)) (name : String) (v : Value) :
    (t.define name v).IsAbove s (count + 1) := by
  obtain ⟨own, hown, hframes⟩ := ht
  cases own with
  | nil => cases hown
  | cons scope own =>
    refine ⟨Keyed.insert name v scope :: own, hown, ?_⟩
    rw [Session.define, hframes]
    rfl

theorem assign (ht : t.IsAbove s (count + 1)) (name : String) (v : Value) :
    (t.assign name v).IsAbove s (count + 1) := by
  unfold Session.assign
  split
  · exact ht.of_frames_eq rfl
  · exact ht.define name v

/-- Within a call only the beginning and the end of calls change how many scopes there are. -/
theorem tame (s : Session) (count : Nat) : Session.Tame fun t => t.IsAbove s (count + 1) where
  print _ _ ht := ht.of_frames_eq rfl
  call _ _ ht := ht.of_frames_eq rfl
  look _ _ ht _ := ht.of_frames_eq rfl
  define _ name v ht := ht.define name v
  assign _ name v ht := ht.assign name v
  profile _ _ ht := ht.of_frames_eq rfl
  made _ _ ht := ht.of_frames_eq rfl

/-- A call puts one scope on top, which has the arguments. -/
theorem enter (ht : t.IsAbove s count) (bindings : List (String × Value)) :
    (defineAll { t with frames := [] :: t.frames } bindings).IsAbove s (count + 1) :=
  (tame s count).defineAll ht.push bindings

end Session.IsAbove

namespace Evaluation

open Effect (Keeps)
open Relation (ReflTransGen)

variable {h : Host} {fuel : Nat} {calls : List Function} {task : Task} {f : Value} {vs : List Value} {s : Session}

/-- The law of a call that begins in `s`: there is a scope on top for each call in it. Variables are
bound only where there is one. -/
def isolation (h : Host) (s : Session) : Law h where
  Inv fs t := t.IsAbove s fs.length
  Val _ := True
  Key _ := True
  node fs _ := fs ≠ []
  site fs _ := fs ≠ []
  null := trivial
  bool _ := trivial
  literal _ := trivial
  lookup _ _ := trivial
  binary _ _ _ := trivial
  unary _ _ := trivial
  index _ _ _ := trivial
  array _ _ := trivial
  key _ _ _ := trivial
  map _ := trivial
  items _ _ _ _ := trivial
  builtin {_ vs b} _ t ht :=
    ⟨ht.of_frames_eq ((b.unframed_call h vs).frames_eq t), fun _ _ => trivial, fun _ _ => trivial⟩
  look ht := ht.of_frames_eq rfl
  assign {fs _ _ _ _} hnode _ ht := by
    cases fs with
    | nil => exact absurd rfl hnode
    | cons f fs => exact ht.assign _ _
  define {fs _ _ _ _} hsite _ _ ht := by
    cases fs with
    | nil => exact absurd rfl hsite
    | cons f fs => exact ht.define _ _
  makes _ ht := ⟨ht.of_frames_eq rfl, trivial⟩
  enter _ _ _ _ ht := ht.enter _
  nodes _ _ _ _ := ⟨List.cons_ne_nil _ _, fun _ _ _ _ => List.cons_ne_nil _ _⟩
  leave ht := ht.pop

/-! ### Moments of a call -/

/-- The calls below take no part in what a moment leads to. -/
theorem Moment.Leads.inner {inner outer : List Function} {m : Moment}
    (hleads : Moment.Leads h ⟨fuel, inner ++ outer, task, s⟩ m) :
    ∃ inner', m.calls = inner' ++ outer ∧
      Moment.Leads h ⟨fuel, inner, task, s⟩ ⟨m.fuel, inner', m.task, m.session⟩ := by
  cases hleads with
  | part hpart => exact ⟨inner, rfl, .part hpart⟩
  | @enter _ _ f _ _ _ _ hbody harity hpush => exact ⟨f :: inner, rfl, .enter hbody harity hpush⟩

theorem inner_of_leads {m : Moment} (hleads : ReflTransGen (Moment.Leads h) ⟨fuel, calls, task, s⟩ m) :
    ∃ inner, m.calls = inner ++ calls ∧
      ReflTransGen (Moment.Leads h) ⟨fuel, [], task, s⟩ ⟨m.fuel, inner, m.task, m.session⟩ := by
  induction hleads with
  | refl => exact ⟨[], rfl, .refl⟩
  | @tail m _ _ hleads ih =>
    obtain ⟨inner, hcalls, hinner⟩ := ih
    obtain ⟨fuel, _, task, t⟩ := m
    cases hcalls
    obtain ⟨inner', hcalls', hleads'⟩ := hleads.inner
    exact ⟨inner', hcalls', hinner.tail hleads'⟩

/-- A call leaves the scopes that it finds, also where it faults. -/
theorem frames_call (h : Host) (fuel : Nat) (f : Value) (vs : List Value) (s : Session) :
    (call h fuel f vs s).2.frames = s.frames :=
  ((isolation h s).calls_call fuel [] f vs trivial (fun _ _ => trivial) s (.refl s)).1.frames_eq

/-- At every moment of a call, and after it, there are the scopes that the call found, and on top of
them one for each call that has not returned. -/
theorem isAbove_of_leads {m : Moment} (hleads : ReflTransGen (Moment.Leads h) ⟨fuel, calls, .apply f vs, s⟩ m) :
    ∃ inner, m.calls = inner ++ calls ∧ m.session.IsAbove s inner.length ∧ (m.after h).IsAbove s inner.length := by
  obtain ⟨inner, hcalls, hinner⟩ := inner_of_leads hleads
  have hlawful : ∀ {k : Moment}, ReflTransGen (Moment.Leads h) ⟨fuel, [], .apply f vs, s⟩ k →
      (isolation h s).Inv k.calls k.session ∧ (isolation h s).Permits k.calls k.task := by
    intro k hk
    induction hk with
    | refl => exact ⟨.refl s, trivial, fun _ _ => trivial⟩
    | tail _ hleads ih => exact Law.keeps_leads hleads ih
  exact ⟨inner, hcalls, (hlawful hinner).1, Law.keeps_after (hlawful hinner)⟩

end Evaluation

end Persona
