import Persona.Proofs.Builtin.Guarded
import Persona.Proofs.Machine.Safety

/-! The machine with its differences, places and slices guarded.

One-byte instructions are decoded by subtraction, arguments are split off the stack at a place, and
a loop looks below the top of the stack for what it runs over. Whatever the bytecode is, none of
this is ever out of range: the guarded machine is the machine. -/
namespace Persona

open Guarded

/-! ### Decoding -/

namespace Instruction

/-- `ofShort`, with what is left of the byte. -/
def guardedShort (offset b : Nat) : Option (Except DecodeError Instruction) :=
  if shortDefineVar ≤ b then do return .ok (defineVar (← minus? b shortDefineVar))
  else if shortLoadVar ≤ b then do return .ok (loadVar (← minus? b shortLoadVar))
  else if shortPushConst ≤ b then do return .ok (pushConst (← minus? b shortPushConst))
  else if shortCall ≤ b then some (.ok (call (b % 8) (8 ≤ b - shortCall)))
  else do
    let id ← minus? b shortBuiltin
    match Builtin.ofIndex? id with
    | some builtin => return .ok (loadBuiltin builtin)
    | none => return .error (.unknownBuiltin offset id)

def guardedDecode (offset : Nat) : List UInt8 → Option (Except DecodeError (Instruction × Nat))
  | [] => some (.error (.truncated offset .halt))
  | b :: bs =>
    if shortBuiltin ≤ b.toNat then do
      let short ← guardedShort offset b.toNat
      return short.map fun i => (i, 1)
    else some (decode offset (b :: bs))

def guardedDecodeAt (code : List UInt8) (offset : Nat) : Option (Except DecodeError (Instruction × Nat)) := do
  let here ← guardedDecode offset (code.drop offset)
  return here.map fun (i, n) => (i, offset + n)

theorem guardedShort_eq (offset : Nat) {b : Nat} (h : shortBuiltin ≤ b) :
    guardedShort offset b = some (ofShort offset b) := by
  unfold guardedShort ofShort
  split
  · next hb => rw [minus?_of_le hb]; rfl
  split
  · next hb => rw [minus?_of_le hb]; rfl
  split
  · next hb => rw [minus?_of_le hb]; rfl
  split
  · rfl
  · rw [minus?_of_le h]
    cases hid : Builtin.ofIndex? (b - shortBuiltin) with
    | none => simp [hid]
    | some builtin => simp [hid]

theorem guardedDecodeAt_eq (code : List UInt8) (offset : Nat) :
    guardedDecodeAt code offset = some (decodeAt code offset) := by
  unfold guardedDecodeAt decodeAt
  cases code.drop offset with
  | nil => rfl
  | cons b bs =>
    by_cases hb : shortBuiltin ≤ b.toNat
    · rw [guardedDecode, decode, if_pos hb, if_pos hb, guardedShort_eq offset hb]
      rfl
    · rw [guardedDecode, if_neg hb]
      rfl

end Instruction

/-! ### Operands -/

/-- `index`, with the item at a place of an array. -/
def Value.guardedIndex : Value → Value → Option (Except Fault Value)
  | array items, key =>
    match place key items.size with
    | .ok i => do return .ok (← items[i]?)
    | .error e => some (.error e)
  | object, key => some (index object key)

theorem Value.place_lt {key : Value} {length i : Nat} (h : place key length = .ok i) : i < length := by
  unfold place at h
  split at h
  · cases h
  · split at h
    · cases h
      omega
    · cases h

theorem Value.guardedIndex_eq (object key : Value) : guardedIndex object key = some (index object key) := by
  cases object with
  | array items =>
    cases hplace : place key items.size with
    | error e => simp only [guardedIndex, index, hplace]; rfl
    | ok i =>
      have hi : items[i]? = some (items.getD i null) := by
        simp [Array.getD, place_lt hplace]
      simp only [guardedIndex, index, hplace, hi]
      rfl
  | _ => rfl

/-- Taking values from the top is splitting the stack below them. -/
theorem Stack.popMany?_eq_split (s : Stack) {count : Nat} (hcount : count ≤ s.height) :
    s.popMany? count = some (s.values.reverse.drop (s.height - count),
      ⟨(s.values.reverse.take (s.height - count)).reverse, _, rfl⟩) := by
  have hlength : s.values.length - (s.height - count) = count := by
    rw [← s.height_eq]
    omega
  have hrest : s.drop count = ⟨(s.values.reverse.take (s.height - count)).reverse, _, rfl⟩ := by
    apply ext_values
    rw [values_drop, List.take_reverse, List.reverse_reverse, hlength]
  rw [popMany?, if_neg (by omega), hrest, List.drop_reverse, hlength]

namespace Machine

variable {h : Host} {c : Code}

/-- An action whose places are guarded, on the machine's session. -/
def guardedAct (a : Guarded Fault Session α) : Guarded Fault Machine α := fun ⟨pointer, stack, frames, session⟩ => do
  let (result, session) ← a session
  return (result, ⟨pointer, stack, frames, session⟩)

/-- `popMany`, as a split of the stack at a place. -/
def guardedPopMany (count : Nat) : Guarded Fault Machine (List Value) := do
  let stack := (← get).stack
  if stack.height < count then throw (.code .underflow)
  let place ← given (minus? stack.height count)
  let (rest, vs) ← given (split? stack.values.reverse place)
  modify fun m => { m with stack := ⟨rest.reverse, _, rfl⟩ }
  return vs

/-- `call`, with its parts guarded. -/
def guardedCall (h : Host) (next argc : Nat) (discard : Bool) : Guarded Fault Machine Unit := do
  let vs ← guardedPopMany argc
  match ← total pop with
  | .builtin b =>
    let result ← guardedAct (b.guardedCall h vs)
    unless discard do total (push h result)
  | .function f =>
    match f.body with
    | .script _ => throw (.code (.noCompiledBody f.id.name))
    | .compiled entry =>
      if f.params.length ≠ vs.length then
        throw (.arityMismatch f.id.name (.exactly f.params.length) vs.length)
      guardedAct (Action.guardedPush h)
      modify fun m => { m with
        session := m.session.defineAll (f.params.zip vs)
        frames := ⟨next, m.stack.height, discard⟩ :: m.frames
        pointer := entry }
  | v => throw (.notCallable v.kind)

/-- `forNext`, with what the loop runs over at its place below the top. -/
def guardedForNext (h : Host) (c : Code) (next : Nat) (distance : Int) : Guarded Fault Machine Unit := do
  let stack := (← get).stack
  match stack.values.head?, minus? stack.height 2 with
  | some (.number x), some place =>
    match ← given stack.values.reverse[place]? with
    | .array items =>
      match items[Decimal.toWord x]? with
      | some item =>
        total (act (Action.checkBudget h))
        modify fun m => { m with stack := (stack.drop 1).push (.number (Decimal.toWord x + 1).toFloat) }
        total (push h item)
      | none =>
        let _ ← guardedPopMany 2
        total (jump c next distance)
    | _ => throw (.code .noIterator)
  | _, _ => throw (.code .noIterator)

/-- `execute`; the instructions that are not listed take nothing apart. -/
def guardedExecute (h : Host) (c : Code) (next : Nat) : Instruction → Guarded Fault Machine Progress
  | .storeVar idx => do
    let s ← total (name c idx)
    match (← get).stack.values with
    | [] => throw (.code .underflow)
    | v :: _ =>
      guardedAct (Action.guardedModify fun session => session.guardedAssign s v)
      return .running
  | .call argc discard => do
    guardedCall h next argc discard
    return .running
  | .index => do
    let key ← total pop
    let object ← total pop
    let item ← given (Value.guardedIndex object key)
    total do
      push h (← act (Action.orFault item))
      return .running
  | .makeArray count => do
    total (act (Action.orFault (Value.checkArrayLength count h.limits)))
    let vs ← guardedPopMany count
    total do
      push h (.array vs.toArray)
      return .running
  | .makeMap count => do
    let vs ← guardedPopMany (2 * count)
    total do
      push h (← act (Action.orFault (mapOf [] vs)))
      return .running
  | .forNext d => do
    guardedForNext h c next d
    return .running
  | i => total (execute h c next i)

/-- `step` of a program, from its bytes. -/
def guardedStep (h : Host) (p : Bytecode) : Guarded Fault Machine Progress := do
  match ← given (Instruction.guardedDecodeAt p.code (← get).pointer) with
  | .error e => throw (.code (.decoding e))
  | .ok (i, next) =>
    total (goto next)
    guardedExecute h (.ofBytecode p) next i

/-! ### Nothing is out of range -/

theorem guardedAct_eq (a : Action α) : guardedAct (total a) = total (act a) := rfl

theorem guardedPopMany_eq (count : Nat) : guardedPopMany count = total (popMany count) := by
  unfold guardedPopMany popMany
  rw [get_eq, ← bind_eq]
  refine congrArg (total get >>= ·) (funext fun m => ?_)
  dsimp only
  by_cases hcount : m.stack.height < count
  · rw [if_pos hcount, Stack.popMany?, if_pos hcount]
    rfl
  · have hplace : m.stack.height - count ≤ m.stack.values.reverse.length := by
      rw [List.length_reverse, ← m.stack.height_eq]
      exact Nat.sub_le ..
    rw [if_neg hcount, minus?_of_le (by omega), given_some, pure_bind_eq, split?_of_le hplace, given_some,
      pure_bind_eq, m.stack.popMany?_eq_split (by omega)]
    rfl

theorem guardedCall_eq (next argc : Nat) (discard : Bool) :
    guardedCall h next argc discard = total (call h next argc discard) := by
  unfold guardedCall call
  rw [guardedPopMany_eq, ← bind_eq]
  refine congrArg (total _ >>= ·) (funext fun vs => ?_)
  rw [← bind_eq]
  refine congrArg (total _ >>= ·) (funext fun v => ?_)
  cases v with
  | builtin b =>
    simp only [Builtin.guardedCall_eq, guardedAct_eq, pure_eq, ite_eq, bind_eq]
  | function f =>
    simp only
    cases f.body with
    | script body => rfl
    | compiled entry =>
      simp only [Action.guardedPush_eq, guardedAct_eq, throw_eq, modify_eq, bind_eq, ite_eq]
  | _ => rfl

theorem guardedForNext_eq (next : Nat) (distance : Int) :
    guardedForNext h c next distance = total (forNext h c next distance) := by
  funext m
  obtain ⟨pointer, ⟨values, height, rfl⟩, frames, session⟩ := m
  unfold guardedForNext forNext
  rw [get_eq, get_bind_apply, total, Effect.get_bind_apply]
  dsimp only
  cases values with
  | nil => rfl
  | cons v below =>
    cases below with
    | nil =>
      cases v with
      | _ => rfl
    | cons w rest =>
      have hplace : minus? (v :: w :: rest).length 2 = some rest.length := by
        rw [minus?_of_le (by simp)]
        rfl
      have hbelow : (v :: w :: rest).reverse[rest.length]? = some w := by simp
      cases v with
      | number x =>
        simp only [List.head?_cons, hplace, hbelow, given_some, pure_bind_eq]
        cases w with
        | array items =>
          simp only [iterator?]
          cases items[Decimal.toWord x]? with
          | none =>
            rw [guardedPopMany_eq, bind_eq]
            rfl
          | some item =>
            simp only [modify_eq, bind_eq]
            rfl
        | _ => rfl
      | _ => rfl

theorem guardedExecute_eq (next : Nat) (i : Instruction) :
    guardedExecute h c next i = total (execute h c next i) := by
  cases i with
  | storeVar idx =>
    unfold guardedExecute execute
    rw [← bind_eq]
    refine congrArg (total _ >>= ·) (funext fun name => ?_)
    rw [get_eq, ← bind_eq]
    refine congrArg (total get >>= ·) (funext fun m => ?_)
    cases m.stack.values with
    | nil => rfl
    | cons v rest =>
      dsimp only
      rw [Action.guardedModify_eq fun session => session.guardedAssign_eq name v, guardedAct_eq, pure_eq, bind_eq]
      rfl
  | call argc discard => simp only [guardedExecute, execute, guardedCall_eq, pure_eq, bind_eq]
  | index => simp only [guardedExecute, execute, Value.guardedIndex_eq, given_some, bind_eq, pure_bind]
  | makeArray count => simp only [guardedExecute, execute, guardedPopMany_eq, bind_eq]
  | makeMap count => simp only [guardedExecute, execute, guardedPopMany_eq, bind_eq]
  | forNext d => simp only [guardedExecute, execute, guardedForNext_eq, pure_eq, bind_eq]
  | _ => rfl

/-- Carrying out a step of any program, the machine finds all it takes. -/
theorem guardedStep_eq (p : Bytecode) : guardedStep h p = total (step h (.ofBytecode p)) := by
  unfold guardedStep step
  rw [get_eq, ← bind_eq]
  refine congrArg (total get >>= ·) (funext fun m => ?_)
  rw [Instruction.guardedDecodeAt_eq, given_some, pure_bind_eq, fetch_ofBytecode]
  cases Instruction.decodeAt p.code m.pointer with
  | error e => rfl
  | ok found => simp only [guardedExecute_eq, bind_eq]

end Machine

end Persona
