import Persona.Proofs.Value.Bodies
import Persona.Value.Operation

/-! Operators do not look into functions.

On values with other function bodies an operator does what it does on the values
themselves, and its result has the other bodies. -/
namespace Persona.Value

variable {f : Function → FunctionBody} {limits : Limits}

/-! ### Binary operators -/

@[simp] theorem operandFault_mapBodies (op : BinaryOp) (a b : Value) :
    operandFault op (a.mapBodies f) (b.mapBodies f) = operandFault op a b := by
  rw [operandFault, kind_mapBodies, kind_mapBodies]
  rfl

/-- A check in front of a result does not matter. -/
theorem checked_mapBodies (check : Except Fault Unit) (v : Value) :
    (do
      check
      return v.mapBodies f) = (do
      check
      return v).map (mapBodies f) := by
  cases check with
  | error e => rfl
  | ok u => rfl

theorem concat_mapBodies (s : String) :
    (add.concat limits s).map (mapBodies f) = add.concat limits s :=
  (checked_mapBodies _ (string s)).symm

theorem replicate_mapBodies (s : String) (count : Value) :
    (replicate limits s count).map (mapBodies f) = replicate limits s count := by
  unfold replicate
  split
  · exact (checked_mapBodies _ (string _)).symm
  · rfl

theorem arrays_mapBodies (xs ys : Array Value) :
    (do
      checkArrayLength ((xs.map (mapBodies f)).size + (ys.map (mapBodies f)).size) limits
      return array (xs.map (mapBodies f) ++ ys.map (mapBodies f))) = (do
      checkArrayLength (xs.size + ys.size) limits
      return array (xs ++ ys)).map (mapBodies f) := by
  rw [Array.size_map, Array.size_map, ← Array.map_append, ← mapBodies_array]
  exact checked_mapBodies _ _

theorem add_mapBodies (a b : Value) :
    add limits (a.mapBodies f) (b.mapBodies f) = (add limits a b).map (mapBodies f) := by
  cases a with
  | string s =>
    show add.concat limits ((b.mapBodies f).write s) = (add.concat limits (b.write s)).map _
    rw [write_mapBodies, concat_mapBodies]
  | array xs =>
    cases b with
    | array ys =>
      rw [mapBodies_array, mapBodies_array]
      exact arrays_mapBodies xs ys
    | string t =>
      show add.concat limits (((array xs).mapBodies f).text ++ t) =
        (add.concat limits ((array xs).text ++ t)).map _
      rw [text_mapBodies, concat_mapBodies]
    | _ => rfl
  | map es =>
    cases b with
    | string t =>
      show add.concat limits (((map es).mapBodies f).text ++ t) =
        (add.concat limits ((map es).text ++ t)).map _
      rw [text_mapBodies, concat_mapBodies]
    | array ys =>
      rw [mapBodies_array]
      rfl
    | _ => rfl
  | null | bool _ | number _ | function _ | builtin _ =>
    cases b with
    | string t => exact (concat_mapBodies _).symm
    | array ys =>
      rw [mapBodies_array]
      rfl
    | _ => rfl

theorem multiply_mapBodies (a b : Value) :
    multiply limits (a.mapBodies f) (b.mapBodies f) = (multiply limits a b).map (mapBodies f) := by
  cases a with
  | number x =>
    cases b with
    | string s => exact (replicate_mapBodies s (number x)).symm
    | array ys =>
      rw [mapBodies_array]
      rfl
    | _ => rfl
  | string s =>
    cases b with
    | number x => exact (replicate_mapBodies s (number x)).symm
    | array ys =>
      rw [mapBodies_array]
      rfl
    | _ => rfl
  | array xs =>
    rw [mapBodies_array]
    cases b with
    | array ys =>
      rw [mapBodies_array]
      rfl
    | _ => rfl
  | null | bool _ | map _ | function _ | builtin _ =>
    cases b with
    | array ys =>
      rw [mapBodies_array]
      rfl
    | _ => rfl

/-- An operator on two numbers. -/
theorem numbers_mapBodies {op : Value → Value → Except Fault Value} (o : BinaryOp)
    (hnumbers : ∀ x y, (op (number x) (number y)).map (mapBodies f) = op (number x) (number y))
    (hother : ∀ a b, (∀ x y, a = number x → b ≠ number y) → op a b = .error (operandFault o a b))
    (a b : Value) : op (a.mapBodies f) (b.mapBodies f) = (op a b).map (mapBodies f) := by
  by_cases h : ∃ x y, a = number x ∧ b = number y
  · obtain ⟨x, y, rfl, rfl⟩ := h
    exact (hnumbers x y).symm
  · have hkinds : ∀ x y, a.mapBodies f = number x → b.mapBodies f ≠ number y := by
      intro x y ha hb
      refine h ?_
      cases a with
      | number x' =>
        cases b with
        | number y' => exact ⟨x', y', rfl, rfl⟩
        | array ys =>
          rw [mapBodies_array] at hb
          cases hb
        | _ => cases hb
      | array xs =>
        rw [mapBodies_array] at ha
        cases ha
      | _ => cases ha
    rw [hother _ _ hkinds, hother a b fun x y ha hb => h ⟨x, y, ha, hb⟩, operandFault_mapBodies]
    rfl

theorem divide_mapBodies (a b : Value) :
    divide (a.mapBodies f) (b.mapBodies f) = (divide a b).map (mapBodies f) := by
  refine numbers_mapBodies .div (fun x y => ?_) (fun a b h => ?_) a b
  · unfold divide
    by_cases hy : (y == 0.0) = true
    · simp only [hy]
      rfl
    · simp only [hy]
      rfl
  · unfold divide
    split
    · next x y => exact absurd rfl (h x y rfl)
    · rfl

theorem modulo_mapBodies (a b : Value) :
    modulo (a.mapBodies f) (b.mapBodies f) = (modulo a b).map (mapBodies f) := by
  refine numbers_mapBodies .mod (fun x y => ?_) (fun a b h => ?_) a b
  · unfold modulo
    by_cases hy : (y == 0.0) = true
    · simp only [hy]
      rfl
    · simp only [hy]
      rfl
  · unfold modulo
    split
    · next x y => exact absurd rfl (h x y rfl)
    · rfl

@[simp] theorem compare_mapBodies (op : BinaryOp) (a b : Value) :
    compare op (a.mapBodies f) (b.mapBodies f) = compare op a b := by
  cases a with
  | array xs =>
    obtain ⟨xs⟩ := xs
    cases b with
    | array ys =>
      obtain ⟨ys⟩ := ys
      rfl
    | _ => rfl
  | _ =>
    cases b with
    | array ys =>
      obtain ⟨ys⟩ := ys
      rfl
    | _ => rfl

theorem order_mapBodies (op : BinaryOp) (holds : Ordering → Bool) (a b : Value) :
    (compare op (a.mapBodies f) (b.mapBodies f)).map (fun o => bool (holds o)) =
      ((compare op a b).map fun o => bool (holds o)).map (mapBodies f) := by
  rw [compare_mapBodies]
  cases compare op a b with
  | error e => rfl
  | ok o => rfl

theorem binary_mapBodies (op : BinaryOp) (a b : Value) :
    binary limits op (a.mapBodies f) (b.mapBodies f) =
      (binary limits op a b).map (mapBodies f) := by
  cases op with
  | add => exact add_mapBodies a b
  | sub =>
    refine numbers_mapBodies .sub (fun x y => rfl) (fun a b h => ?_) a b
    rw [binary]
    exact h
  | mul => exact multiply_mapBodies a b
  | div => exact divide_mapBodies a b
  | mod => exact modulo_mapBodies a b
  | pow =>
    refine numbers_mapBodies .pow (fun x y => rfl) (fun a b h => ?_) a b
    rw [binary]
    exact h
  | equal => exact congrArg (fun b => Except.ok (bool b)) (beq_mapBodies a b)
  | notEqual => exact congrArg (fun b => Except.ok (bool (!b))) (beq_mapBodies a b)
  | less => exact order_mapBodies .less (·.isLT) a b
  | lessEqual => exact order_mapBodies .lessEqual (·.isLE) a b
  | greater => exact order_mapBodies .greater (·.isGT) a b
  | greaterEqual => exact order_mapBodies .greaterEqual (·.isGE) a b
  | and => rfl
  | or => rfl

/-! ### Other operators -/

theorem unary_mapBodies (op : UnaryOp) (v : Value) :
    unary op (v.mapBodies f) = (unary op v).map (mapBodies f) := by
  cases op with
  | not =>
    show Except.ok (bool (!(v.mapBodies f).isTruthy)) = _
    rw [isTruthy_mapBodies]
    rfl
  | negate =>
    cases v with
    | array xs =>
      obtain ⟨xs⟩ := xs
      rfl
    | _ => rfl

@[simp] theorem place_mapBodies (key : Value) (length : Nat) :
    place (key.mapBodies f) length = place key length := by
  rw [place, integer?_mapBodies, kind_mapBodies]
  rfl

theorem index_mapBodies (object key : Value) :
    index (object.mapBodies f) (key.mapBodies f) = (index object key).map (mapBodies f) := by
  cases object with
  | array xs =>
    rw [mapBodies_array]
    show (do
      return (xs.map (mapBodies f)).getD
        (← place (key.mapBodies f) (xs.map (mapBodies f)).size) null) = (do
      return xs.getD (← place key xs.size) null).map _
    rw [place_mapBodies, Array.size_map]
    cases place key xs.size with
    | error e => rfl
    | ok i =>
      show Except.ok _ = Except.ok _
      simp only [Array.getD_eq_getD_getElem?, Array.getElem?_map]
      cases xs[i]? with
      | none => rfl
      | some v => rfl
  | string s =>
    show (do
      return string (((s.toList[← place (key.mapBodies f) s.toList.length]?).map
        String.singleton).getD "")) = (do
      return string (((s.toList[← place key s.toList.length]?).map String.singleton).getD "")).map _
    rw [place_mapBodies]
    cases place key s.toList.length with
    | error e => rfl
    | ok i => rfl
  | map es =>
    rw [mapBodies_map]
    cases key with
    | string k =>
      show Except.ok ((Keyed.get? k (Keyed.mapValues (mapBodies f) es)).getD null) =
        Except.ok (mapBodies f ((Keyed.get? k es).getD null))
      rw [Keyed.get?_mapValues]
      cases Keyed.get? k es with
      | none => rfl
      | some v => rfl
    | array ys =>
      obtain ⟨ys⟩ := ys
      rfl
    | _ => rfl
  | _ => rfl

theorem items_mapBodies (v : Value) :
    (v.mapBodies f).items = v.items.map (Array.map (mapBodies f)) := by
  cases v with
  | array xs =>
    rw [mapBodies_array]
    rfl
  | string s =>
    show Except.ok _ = Except.ok _
    rw [Array.map_map]
    rfl
  | map es =>
    rw [mapBodies_map]
    show Except.ok _ = Except.ok _
    rw [Array.map_map, Keyed.mapValues, ← List.map_toArray, Array.map_map]
    rfl
  | _ => rfl

theorem extend_mapBodies (head tail : Value) :
    extend limits (head.mapBodies f) (tail.mapBodies f) =
      (extend limits head tail).map (mapBodies f) := by
  cases head with
  | array xs =>
    cases tail with
    | array ys =>
      rw [mapBodies_array, mapBodies_array]
      exact arrays_mapBodies xs ys
    | _ =>
      rw [mapBodies_array]
      rfl
  | map m =>
    cases tail with
    | map n =>
      rw [mapBodies_map, mapBodies_map]
      show Except.ok (map (Keyed.insertAll (Keyed.mapValues _ n) (Keyed.mapValues _ m))) = _
      rw [Keyed.insertAll_mapValues, ← mapBodies_map]
      rfl
    | array ys =>
      obtain ⟨ys⟩ := ys
      rfl
    | _ => rfl
  | _ =>
    cases tail with
    | array ys =>
      obtain ⟨ys⟩ := ys
      rfl
    | _ => rfl

/-! ### Sorts of functions -/

section
variable {sort : Function → Prop}

/-- The result of an operation that does not look into functions. -/
theorem holds_of_map {x : Except Fault Value} (h : x.map (mapBodies (.only sort)) = x) {v : Value}
    (hv : x = .ok v) : v.HoldsOnly sort := by
  subst hv
  exact holds_iff.2 (Except.ok.inj h)

theorem holds_binary {limits : Limits} {op : BinaryOp} {a b v : Value} (ha : a.HoldsOnly sort)
    (hb : b.HoldsOnly sort) (hv : binary limits op a b = .ok v) : v.HoldsOnly sort := by
  refine holds_of_map ?_ hv
  rw [← binary_mapBodies, holds_iff.1 ha, holds_iff.1 hb]

theorem holds_unary {op : UnaryOp} {a v : Value} (ha : a.HoldsOnly sort) (hv : unary op a = .ok v) :
    v.HoldsOnly sort := by
  refine holds_of_map ?_ hv
  rw [← unary_mapBodies, holds_iff.1 ha]

theorem holds_index {object key v : Value} (ho : object.HoldsOnly sort) (hk : key.HoldsOnly sort)
    (hv : index object key = .ok v) : v.HoldsOnly sort := by
  refine holds_of_map ?_ hv
  rw [← index_mapBodies, holds_iff.1 ho, holds_iff.1 hk]

theorem holds_extend {limits : Limits} {head tail v : Value} (hh : head.HoldsOnly sort)
    (ht : tail.HoldsOnly sort) (hv : extend limits head tail = .ok v) : v.HoldsOnly sort := by
  refine holds_of_map ?_ hv
  rw [← extend_mapBodies, holds_iff.1 hh, holds_iff.1 ht]

theorem holds_of_items {v : Value} {items : Array Value} (hv : v.HoldsOnly sort)
    (hitems : v.items = .ok items) : (array items).HoldsOnly sort := by
  have hfixed := items_mapBodies (f := .only sort) v
  rw [holds_iff.1 hv, hitems] at hfixed
  refine holds_iff.2 ?_
  rw [mapBodies_array]
  exact congrArg array (Except.ok.inj hfixed).symm

end

end Persona.Value
