import Persona.Machine
import Persona.Proofs.Builtin.Call

/-! The operands of instructions.

What is on the stack is a list of values; taking values off it is taking them off the
list. The machine's own operations on values do not look into functions either. -/
namespace Persona

variable {f : Function → FunctionBody}

namespace Stack

theorem ext_values {s t : Stack} (h : s.values = t.values) : s = t := by
  obtain ⟨vs, n, hn⟩ := s
  obtain ⟨ws, k, hk⟩ := t
  cases h
  subst hn hk
  rfl

theorem pop?_eq_some {s t : Stack} {v : Value} (h : s.values = v :: t.values) :
    s.pop? = some (v, t) := by
  unfold pop?
  split
  · next hvalues =>
    rw [h] at hvalues
    cases hvalues
  · next hvalues =>
    rw [h] at hvalues
    cases hvalues
    exact congrArg (fun t => some (v, t)) (ext_values rfl)

theorem values_of_pop? {s t : Stack} {v : Value} (h : s.pop? = some (v, t)) :
    s.values = v :: t.values := by
  unfold pop? at h
  split at h
  · cases h
  · next hvalues =>
    cases h
    exact hvalues

@[simp] theorem values_drop (s : Stack) (count : Nat) : (s.drop count).values = s.values.drop count := rfl

theorem popMany?_eq_some {s t : Stack} {vs : List Value} (h : s.values = vs.reverse ++ t.values) :
    s.popMany? vs.length = some (vs, t) := by
  have hheight : ¬ s.height < vs.length := by
    rw [s.height_eq, h, List.length_append, List.length_reverse]
    omega
  have hdrop : s.drop vs.length = t := by
    apply ext_values
    rw [values_drop, h, ← List.length_reverse, List.drop_left]
  have htake : (s.values.take vs.length).reverse = vs := by
    rw [h, ← List.length_reverse, List.take_left, List.reverse_reverse]
  rw [popMany?, if_neg hheight, hdrop, htake]

theorem mem_of_popMany? {s t : Stack} {count : Nat} {vs : List Value}
    (h : s.popMany? count = some (vs, t)) :
    (∀ v ∈ vs, v ∈ s.values) ∧ ∀ v ∈ t.values, v ∈ s.values := by
  unfold popMany? at h
  split at h
  · cases h
  · cases h
    refine ⟨fun v hv => List.mem_of_mem_take (List.mem_reverse.1 hv), fun v hv => ?_⟩
    exact List.mem_of_mem_drop hv

theorem height_of_pop? {s t : Stack} {v : Value} (h : s.pop? = some (v, t)) : t.height ≤ s.height := by
  rw [s.height_eq, t.height_eq, values_of_pop? h]
  exact Nat.le_succ _

theorem height_of_popMany? {s t : Stack} {count : Nat} {vs : List Value} (h : s.popMany? count = some (vs, t)) :
    t.height ≤ s.height := by
  unfold popMany? at h
  split at h
  · cases h
  · cases h
    exact Nat.sub_le ..

/-- Dropping what is above a height leaves what is below. -/
theorem values_truncate {s : Stack} {above below : List Value} (h : s.values = above ++ below) :
    (s.truncate below.length).values = below := by
  have hcount : s.height - below.length = above.length := by
    rw [s.height_eq, h, List.length_append]
    omega
  rw [truncate, hcount, values_drop, h, List.drop_left]

end Stack

namespace Machine

theorem mapOf_string (es : List (String × Value)) (key : String) (v : Value) (rest : List Value) :
    mapOf es (.string key :: v :: rest) = mapOf (Keyed.insert key v es) rest := rfl

theorem mapOf_nil (es : List (String × Value)) : mapOf es [] = .ok (.map es) := rfl

theorem mapOf_single (es : List (String × Value)) (v : Value) : mapOf es [v] = .ok (.map es) := by
  cases v with
  | _ => rfl

theorem mapOf_other {es : List (String × Value)} {key v : Value} {rest : List Value}
    (h : ∀ s, key ≠ .string s) :
    mapOf es (key :: v :: rest) = .error (.type (.mapKey key.kind)) := by
  cases key with
  | string s => exact absurd rfl (h s)
  | _ => rfl

/-- The entries of a map are made without a look at their values. -/
theorem mapOf_mapBodies : ∀ (vs : List Value) (es : List (String × Value)),
    mapOf (Keyed.mapValues (Value.mapBodies f) es) (vs.map (Value.mapBodies f)) =
      (mapOf es vs).map (Value.mapBodies f)
  | [], es => by
    rw [mapOf_nil, List.map_nil, mapOf_nil, ← Value.mapBodies_map]
    rfl
  | [v], es => by
    rw [mapOf_single, List.map_cons, List.map_nil, mapOf_single, ← Value.mapBodies_map]
    rfl
  | key :: v :: rest, es => by
    rw [List.map_cons, List.map_cons]
    cases key with
    | string s =>
      rw [mapOf_string, Value.mapBodies_string, mapOf_string, Keyed.insert_mapValues]
      exact mapOf_mapBodies rest _
    | array items =>
      obtain ⟨items⟩ := items
      rfl
    | _ => rfl

section
variable {sort : Function → Prop}

theorem holds_mapOf {vs : List Value} {v : Value} (hvs : ∀ w ∈ vs, w.HoldsOnly sort)
    (hv : mapOf [] vs = .ok v) : v.HoldsOnly sort := by
  refine Value.holds_of_map ?_ hv
  have hmap := mapOf_mapBodies (f := .only sort) vs []
  rw [Value.map_eq_of_holds hvs] at hmap
  exact hmap.symm

theorem holds_iterator {vs : List Value} {items : Array Value} {used : Nat}
    (hvs : ∀ w ∈ vs, w.HoldsOnly sort) (h : iterator? vs = some (items, used)) :
    (Value.array items).HoldsOnly sort := by
  unfold iterator? at h
  split at h
  · next x items' rest =>
    cases h
    exact hvs _ (List.mem_cons_of_mem _ (List.mem_cons_self ..))
  · cases h

end

end Machine

end Persona
