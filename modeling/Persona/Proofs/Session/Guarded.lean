import Persona.Proofs.Builtin.Effect
import Persona.Proofs.Guarded

/-! Sessions whose places are guarded.

Output is cut off where a character begins, and variables live in a stack of scopes of which the
last one is the current one. The places this needs are always there: going back from any byte of
a text one comes to the beginning of a character, and the stack of scopes is never empty. -/
namespace Persona

open Guarded

/-! ### Output -/

namespace Output

/-- The characters before a byte, if a character begins there or the text ends. -/
def charsBefore? : List Char → Nat → Option (List Char)
  | _, 0 => some []
  | [], _ + 1 => none
  | c :: cs, n + 1 =>
    if c.utf8Size ≤ n + 1 then (charsBefore? cs (n + 1 - c.utf8Size)).map (c :: ·) else none

/-- The last byte up to the given one where a character begins; before the first byte there is
no other. -/
def boundary? (cs : List Char) : Nat → Option Nat
  | 0 => if (charsBefore? cs 0).isSome then some 0 else none
  | n + 1 => if (charsBefore? cs (n + 1)).isSome then some (n + 1) else boundary? cs n

/-- `write`, with the text cut off at a byte. -/
def guardedWrite (o : Output) (s : String) : Option Output :=
  let room := o.cap - o.text.utf8ByteSize
  if o.isTruncated then some o
  else if s.utf8ByteSize ≤ room then some { o with text := o.text ++ s }
  else do
    let cut ← boundary? s.toList room
    let kept ← charsBefore? s.toList cut
    return { o with text := o.text ++ String.ofList kept, isTruncated := true }

theorem charsBefore?_zero (cs : List Char) : charsBefore? cs 0 = some [] := by
  cases cs with
  | nil => rfl
  | cons c cs => rfl

theorem charsBefore?_cons (c : Char) (cs : List Char) (n : Nat) :
    charsBefore? (c :: cs) (n + c.utf8Size) = (charsBefore? cs n).map (c :: ·) := by
  have hpos := c.utf8Size_pos
  obtain ⟨k, hk⟩ : ∃ k, n + c.utf8Size = k + 1 := ⟨n + c.utf8Size - 1, by omega⟩
  rw [hk, charsBefore?, if_pos (by omega), ← hk, Nat.add_sub_cancel]

theorem charsBefore?_inside {c : Char} {n : Nat} (h : n + 1 < c.utf8Size) (cs : List Char) :
    charsBefore? (c :: cs) (n + 1) = none := by
  rw [charsBefore?, if_neg (by omega)]

theorem boundary?_cons (c : Char) (cs : List Char) (n : Nat) :
    boundary? (c :: cs) (n + c.utf8Size) = (boundary? cs n).map (· + c.utf8Size) := by
  have hpos := c.utf8Size_pos
  induction n with
  | zero =>
    obtain ⟨k, hk⟩ : ∃ k, 0 + c.utf8Size = k + 1 := ⟨c.utf8Size - 1, by omega⟩
    have hsome := charsBefore?_cons c cs 0
    rw [hk, charsBefore?_zero] at hsome
    have hzero : boundary? cs 0 = some 0 := by
      rw [boundary?, charsBefore?_zero]
      rfl
    rw [hk, hzero, boundary?, hsome, ← hk]
    rfl
  | succ n ih =>
    have hnext : n + 1 + c.utf8Size = n + c.utf8Size + 1 := by omega
    have hchars := charsBefore?_cons c cs (n + 1)
    rw [hnext] at hchars
    rw [hnext, boundary?, boundary?, hchars, ih]
    cases charsBefore? cs (n + 1) with
    | none => rfl
    | some kept => simp [hnext]

theorem boundary?_inside {c : Char} {n : Nat} (h : n < c.utf8Size) (cs : List Char) :
    boundary? (c :: cs) n = some 0 := by
  induction n with
  | zero => rfl
  | succ n ih => rw [boundary?, charsBefore?_inside h, if_neg (by simp), ih (by omega)]

theorem boundary?_nil (n : Nat) : boundary? [] n = some 0 := by
  induction n with
  | zero => rfl
  | succ n ih => rw [boundary?, charsBefore?, if_neg (by simp), ih]

/-- Going back from a byte leads to the end of the characters that fit before it. -/
theorem boundary?_fill (cs : List Char) (text : String) (room : Nat) :
    ∃ cut kept, boundary? cs room = some cut ∧ charsBefore? cs cut = some kept ∧
      fill text room cs = text ++ String.ofList kept := by
  induction cs generalizing text room with
  | nil => exact ⟨0, [], boundary?_nil room, rfl, by simp [fill]⟩
  | cons c cs ih =>
    by_cases hfits : c.utf8Size ≤ room
    · obtain ⟨cut, kept, hcut, hkept, hfill⟩ := ih (text.push c) (room - c.utf8Size)
      obtain ⟨rest, rfl⟩ := Nat.exists_eq_add_of_le' hfits
      rw [Nat.add_sub_cancel] at hcut hfill
      refine ⟨cut + c.utf8Size, c :: kept, ?_, ?_, ?_⟩
      · rw [boundary?_cons, hcut]
        rfl
      · rw [charsBefore?_cons, hkept]
        rfl
      · rw [fill, if_pos hfits, Nat.add_sub_cancel, hfill]
        apply String.toList_inj.1
        simp
    · refine ⟨0, [], boundary?_inside (by omega) cs, charsBefore?_zero _, ?_⟩
      rw [fill, if_neg hfits]
      simp

theorem guardedWrite_eq (o : Output) (s : String) : o.guardedWrite s = some (o.write s) := by
  unfold guardedWrite write
  dsimp only
  split
  · rfl
  split
  · rfl
  · obtain ⟨cut, kept, hcut, hkept, hfill⟩ :=
      boundary?_fill s.toList o.text (o.cap - o.text.utf8ByteSize)
    rw [hcut, hfill]
    show (charsBefore? s.toList cut >>= fun kept => _) = _
    rw [hkept]
    rfl

end Output

/-! ### Scopes -/

namespace Session

/-- The scopes one upon the other, the global one first. -/
def scopes (s : Session) : List Scope := s.globals :: s.frames.reverse

/-- A session with other scopes, of which there must be one. -/
def withScopes? (s : Session) : List Scope → Option Session
  | [] => none
  | globals :: frames => some { s with globals, frames := frames.reverse }

/-- `depth`: all scopes but one belong to calls. -/
def guardedDepth (s : Session) : Option Nat := minus? s.scopes.length 1

/-- `assign`, by the place of the scope that is changed. -/
def guardedAssign (s : Session) (name : String) (v : Value) : Option Session := do
  let last ← minus? s.scopes.length 1
  let current ← s.scopes[last]?
  let globals ← s.scopes[0]?
  let target :=
    if (Keyed.get? name current).isSome then last
    else if (Keyed.get? name globals).isSome then 0
    else last
  let scope ← s.scopes[target]?
  s.withScopes? (s.scopes.set target (Keyed.insert name v scope))

theorem length_scopes (s : Session) : s.scopes.length = s.depth + 1 := by
  rw [scopes, List.length_cons, List.length_reverse]
  rfl

theorem scopes_ne_nil (s : Session) : s.scopes ≠ [] := List.cons_ne_nil _ _

theorem guardedDepth_eq (s : Session) : s.guardedDepth = some s.depth := by
  rw [guardedDepth, s.length_scopes]
  exact minus?_of_le (by omega)

theorem scopes_last (s : Session) : s.scopes[s.depth]? = some s.scope := by
  unfold scopes depth scope
  cases s.frames with
  | nil => rfl
  | cons f rest => simp

/-- Changing the last scope is changing the current one. -/
theorem withScopes?_last (s : Session) (name : String) (v : Value) :
    s.withScopes? (s.scopes.set s.depth (Keyed.insert name v s.scope)) = some (s.define name v) := by
  unfold scopes depth scope define
  cases hframes : s.frames with
  | nil => simp [withScopes?]
  | cons f rest => simp [withScopes?]

theorem guardedAssign_eq (s : Session) (name : String) (v : Value) :
    s.guardedAssign name v = some (s.assign name v) := by
  have hlast : minus? s.scopes.length 1 = some s.depth := s.guardedDepth_eq
  have hfirst : s.scopes[0]? = some s.globals := rfl
  unfold guardedAssign assign
  simp only [hlast, s.scopes_last, hfirst, Option.bind_eq_bind, Option.bind_some]
  have hcurrent : (s.scopes[s.depth]?.bind fun scope =>
      s.withScopes? (s.scopes.set s.depth (Keyed.insert name v scope))) = some (s.define name v) := by
    rw [s.scopes_last]
    exact s.withScopes?_last name v
  cases Keyed.get? name s.scope with
  | some w => exact hcurrent
  | none =>
    cases Keyed.get? name s.globals with
    | none => exact hcurrent
    | some w =>
      show s.withScopes? (Keyed.insert name v s.globals :: s.frames.reverse) = _
      rw [withScopes?, List.reverse_reverse]
      rfl

end Session

/-! ### Actions -/

namespace Action

/-- An action on the session whose places are guarded. -/
def guardedModify (f : Session → Option Session) : Guarded Fault Session Unit := do
  let s ← given (f (← get))
  set s

/-- `push`, with the guarded depth. -/
def guardedPush (h : Host) : Guarded Fault Session Unit := do
  total (checkBudget h)
  let depth ← given (← get).guardedDepth
  if h.limits.maxCallDepth ≤ depth then throw (.stackOverflow h.limits.maxCallDepth)
  modify fun s => { s with frames := [] :: s.frames }

theorem guardedModify_eq {f : Session → Option Session} {g : Session → Session} (h : ∀ s, f s = some (g s)) :
    guardedModify f = total (modify g) := by
  funext s
  unfold guardedModify
  show (given (f s) >>= fun s => set s : Guarded Fault Session Unit) s = _
  rw [h s]
  rfl

theorem guardedPush_eq (h : Host) : guardedPush h = total (push h) := by
  unfold guardedPush push
  simp only [Session.guardedDepth_eq, given_some, throw_eq, get_eq, modify_eq, bind_eq, ite_eq,
    pure_bind]

end Action

end Persona
