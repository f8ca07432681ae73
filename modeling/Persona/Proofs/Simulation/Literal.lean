import Persona.Proofs.Simulation.Segments

/-! Literals of arrays and of maps.

Both are assembled from segments. One more entry in the last segment is one more entry in
the whole, since arrays are joined behind one another and the keys of maps have no order
but their own. -/
namespace Persona.Simulation

open Compilation (segments)
open Machine (mapOf)

/-! ### Arrays -/

namespace Alike

variable {pool : Pool} {table : Compilation.Table}

theorem exists_array {items : Array Value} {w : Value} (h : Alike pool table (.array items) w) :
    ∃ ws, w = .array ws := by
  have hkind := h.kind
  cases w with
  | array ws => exact ⟨ws, rfl⟩
  | _ => cases hkind

theorem exists_map {es : List (String × Value)} {w : Value} (h : Alike pool table (.map es) w) :
    ∃ fs, w = .map fs := by
  have hkind := h.kind
  cases w with
  | map fs => exact ⟨fs, rfl⟩
  | _ => cases hkind

theorem push {xs ws : Array Value} {v w : Value} (h : Alike pool table (.array xs) (.array ws))
    (hv : Alike pool table v w) : Alike pool table (.array (xs.push v)) (.array (ws.push w)) := by
  refine array ?_ ?_
  · rw [h.items, hv.same, Array.map_push]
  · intro u hu
    rcases Array.mem_push.1 hu with hu | rfl
    · exact Value.holds_items.1 h.known u hu
    · exact hv.known

theorem insert {es fs : List (String × Value)} {v w : Value} (h : Alike pool table (.map es) (.map fs))
    (hv : Alike pool table v w) (key : String) :
    Alike pool table (.map (Keyed.insert key v es)) (.map (Keyed.insert key w fs)) := by
  obtain ⟨hsame, hknown⟩ := h
  rw [Value.mapBodies_map] at hsame
  refine ⟨?_, Value.holds_iff.2 ?_⟩
  · rw [Value.map.inj hsame, hv.same, Keyed.insert_mapValues, Value.mapBodies_map]
  · rw [Value.mapBodies_map, ← Keyed.insert_mapValues, Value.holds_iff.1 hv.known]
    rw [Value.holds_iff, Value.mapBodies_map] at hknown
    rw [Value.map.inj hknown]

end Alike

/-- Literals of arrays. -/
def arrays (limits : Limits) : Assembly (Array Value) where
  make := .makeArray
  width := 1
  build ws := (Value.checkArrayLength ws.length limits).map fun _ => .array ws.toArray
  value := .array
  room items n := items.size + n ≤ limits.maxArrayLength

theorem build_arrays {limits : Limits} {ws : List Value} (h : ws.length ≤ limits.maxArrayLength) :
    (arrays limits).build ws = .ok (.array ws.toArray) := by
  show (Value.checkArrayLength _ _).map _ = _
  rw [Value.checkArrayLength, if_neg (Nat.not_lt.2 h)]
  rfl

theorem build_arrays_ok {limits : Limits} {ws : List Value} {segment : Value}
    (h : (arrays limits).build ws = .ok segment) :
    ws.length ≤ limits.maxArrayLength ∧ segment = .array ws.toArray := by
  by_cases hlength : ws.length ≤ limits.maxArrayLength
  · rw [build_arrays hlength] at h
    exact ⟨hlength, (Except.ok.inj h).symm⟩
  · change (Value.checkArrayLength _ _).map _ = _ at h
    rw [Value.checkArrayLength, if_pos (Nat.lt_of_not_le hlength)] at h
    cases h

theorem extend_array {limits : Limits} {xs ys : Array Value} (h : xs.size + ys.size ≤ limits.maxArrayLength) :
    Value.extend limits (.array xs) (.array ys) = .ok (.array (xs ++ ys)) := by
  rw [Value.extend, Value.checkArrayLength, if_neg (Nat.not_lt.2 h)]
  rfl

/-- No items more. -/
theorem extend_array_empty {limits : Limits} {xs : Array Value} (h : xs.size ≤ limits.maxArrayLength) :
    Value.extend limits (.array xs) (.array #[]) = .ok (.array xs) := by
  have hsize : xs.size + (#[] : Array Value).size ≤ limits.maxArrayLength := h
  rw [extend_array hsize, Array.append_empty]

theorem extend_array_ok {limits : Limits} {head : Value} {ys zs : Array Value}
    (h : Value.extend limits head (.array ys) = .ok (.array zs)) :
    ∃ xs, head = .array xs ∧ zs = xs ++ ys := by
  cases head with
  | array xs =>
    rw [Value.extend, Value.checkArrayLength] at h
    by_cases hlong : limits.maxArrayLength < xs.size + ys.size
    · rw [if_pos hlong] at h
      cases h
    · rw [if_neg hlong] at h
      cases h
      exact ⟨xs, rfl, rfl⟩
  | _ => cases h

section
variable {L : Linked} {k : Nat} {call : Caller}

theorem makes_arrays (h : Host) (c : Code) : Makes h c (arrays h.limits) := by
  intro m ws segment done next t hbuild hlength hfetch hvalues
  obtain ⟨hle, rfl⟩ := build_arrays_ok hbuild
  rw [show _ = 1 * _ from hlength, Nat.one_mul] at hle
  refine Machine.step_makeArray ?_ ?_ hvalues
  · rw [show _ = 1 * _ from hlength, Nat.one_mul]
    exact hfetch
  · rwa [show _ = 1 * _ from hlength, Nat.one_mul]

theorem assembles_arrays (L : Linked) : Assembles L (arrays L.host.limits) where
  make := makes_arrays L.host L.code
  start {items rest w} hw hroom := by
    obtain ⟨ws, rfl⟩ := hw.exists_array
    have hroom : items.size + rest ≤ _ := hroom
    rw [Alike.items hw, Array.size_map] at hroom
    exact ⟨.array #[], build_arrays (Nat.zero_le _), extend_array_empty (by omega)⟩

/-- One more item in the segment is one more item in the whole. -/
theorem joined_push {limits : Limits} {head? : Option Value} {ws : List Value} {zs : Array Value}
    (h : joined limits head? (.array ws.toArray) = .ok (.array zs)) (hsize : zs.size < limits.maxArrayLength)
    (w : Value) :
    ws.length < limits.maxArrayLength ∧
      joined limits head? (.array (ws ++ [w]).toArray) = .ok (.array (zs.push w)) := by
  rw [← List.push_toArray]
  cases head? with
  | none =>
    cases h
    exact ⟨hsize, rfl⟩
  | some head =>
    obtain ⟨xs, rfl, rfl⟩ := extend_array_ok h
    simp only [Array.size_append, List.size_toArray] at hsize
    refine ⟨by omega, ?_⟩
    rw [joined, extend_array, Array.append_push]
    simp only [Array.size_push, List.size_toArray]
    omega

/-- Puts the value of an expression behind the items so far. -/
def pushItem (h : Host) (call : Caller) (items : Array Value) (e : Expr) : Eval (Array Value) := do
  let v ← Evaluation.expr h call e
  return items.push v

theorem exprs_eq_foldlM (h : Host) (call : Caller) (es : List Expr) (items : Array Value) :
    Evaluation.exprs h call items es = es.foldlM (pushItem h call) items := by
  induction es generalizing items with
  | nil => rfl
  | cons e es ih =>
    rw [Evaluation.exprs, List.foldlM_cons, pushItem, bind_assoc]
    refine congrArg _ (funext fun v => ?_)
    rw [pure_bind]
    exact ih _

theorem entry_array {e : Expr} {code : Compilation.Code}
    (he : L.Computes k code (Evaluation.expr L.host call e)) :
    Entry L (arrays L.host.limits) k (pushItem L.host call) e code := by
  intro st stack head? ws done rest items stop off next frames s u hpart hplaced hnext htwin
  refine (he hplaced hnext htwin).bind (fun v => Eval.Grows.pure _) ?_
  rintro v s m ⟨w, hw, u, htwin, rfl⟩
  obtain ⟨segment, whole, hbuild, hjoined, halike⟩ := hpart.made
  obtain ⟨-, rfl⟩ := build_arrays_ok hbuild
  obtain ⟨zs, rfl⟩ := halike.exists_array
  have hroom : items.size + (rest + 1) ≤ L.host.limits.maxArrayLength := hpart.room
  have hsize : zs.size < L.host.limits.maxArrayLength := by
    rw [Alike.items halike, Array.size_map] at hroom
    omega
  obtain ⟨hlength, hjoined⟩ := joined_push hjoined hsize w
  refine .done rfl ⟨[w], stack.push w, ⟨?_, ?_, ?_, ?_⟩, u, htwin, rfl⟩
  · rw [List.length_append, hpart.length]
    rfl
  · rw [Stack.values_push, hpart.values, List.reverse_append]
    rfl
  · show (items.push v).size + rest ≤ _
    rw [Array.size_push]
    omega
  · refine ⟨_, _, build_arrays ?_, hjoined, Alike.push halike hw⟩
    rw [List.length_append]
    exact hlength

/-- The code of an array literal computes it, unless it is too long. -/
theorem computes_array (hcall : ∀ f vs, (call f vs).Grows) {es : List Expr}
    {codes : List Compilation.Code} (hes : L.ComputesAll k call es codes) :
    L.Computes k (segments .makeArray true 0 codes) (Evaluation.expr L.host call (.array es)) := by
  intro stop off next st frames s u hplaced hnext htwin
  by_cases hlong : L.host.limits.maxArrayLength < es.length
  · have hstop : Evaluation.expr L.host call (.array es) s = (.error (.longLiteral es.length), s) := by
      rw [Evaluation.expr, if_pos hlong]
      rfl
    exact .longLiteral hstop ⟨htwin.output, htwin.calls⟩
  have heval : Evaluation.expr L.host call (.array es) =
      es.foldlM (pushItem L.host call) #[] >>= fun items => pure (.array items) := by
    rw [Evaluation.expr, if_neg hlong, exprs_eq_foldlM]
  have hpart : Part L (arrays L.host.limits) st none [] 0 es.length #[] st := by
    refine ⟨rfl, rfl, ?_, .array #[], .array #[], build_arrays (Nat.zero_le _), rfl, .refl ?_⟩
    · show 0 + es.length ≤ _
      omega
    · show (Value.array #[]).functions = []
      rw [Value.functions_array]
      rfl
  have hentries : List.Forall₂ (Entry L (arrays L.host.limits) k (pushItem L.host call)) es codes :=
    hes.imp fun e code he => entry_array he
  rw [heval]
  refine (follows_segments (assembles_arrays L) ?_ hentries hpart (fun _ => rfl) hplaced hnext htwin).bind
    (fun _ => Eval.Grows.pure _) ?_
  · exact fun items e => (Evaluation.grows_expr hcall e).bind fun _ => Eval.Grows.pure _
  · rintro items s m hpushes
    exact .done rfl hpushes

end

/-! ### Maps -/

/-- Keys and values make a map in key order, if they make anything. -/
theorem mapOf_ok : ∀ {vs : List Value} {es : List (String × Value)} {v : Value}, Keyed.Sorted es →
    mapOf es vs = .ok v → ∃ fs, v = .map fs ∧ Keyed.Sorted fs
  | [], es, v, hes, h => by
    cases h
    exact ⟨es, rfl, hes⟩
  | [w], es, v, hes, h => by
    rw [Machine.mapOf_single] at h
    cases h
    exact ⟨es, rfl, hes⟩
  | key :: w :: rest, es, v, hes, h => by
    cases key with
    | string s => exact mapOf_ok (Keyed.sorted_insert hes s w) h
    | _ => cases h

/-- A key and a value behind the others are put in last. -/
theorem mapOf_append : ∀ {vs : List Value} {done : Nat} {es fs : List (String × Value)},
    vs.length = 2 * done → mapOf es vs = .ok (.map fs) → ∀ (key : String) (w : Value),
      mapOf es (vs ++ [.string key, w]) = .ok (.map (Keyed.insert key w fs))
  | [], _, es, fs, _, h, key, w => by
    cases h
    rfl
  | [v], done, _, _, hlength, _, _, _ => by
    rw [List.length_singleton] at hlength
    omega
  | k :: v :: rest, done, es, fs, hlength, h, key, w => by
    cases k with
    | string s =>
      have hrest : rest.length = 2 * (done - 1) := by
        rw [List.length_cons, List.length_cons] at hlength
        omega
      exact mapOf_append hrest h key w
    | _ => cases h

/-- Literals of maps. -/
def maps : Assembly (List (String × Value)) where
  make := .makeMap
  width := 2
  build := mapOf []
  value := .map
  room _ _ := True

theorem extend_map_ok {limits : Limits} {head : Value} {ms fs : List (String × Value)}
    (h : Value.extend limits head (.map ms) = .ok (.map fs)) :
    ∃ es, head = .map es ∧ fs = Keyed.insertAll ms es := by
  cases head with
  | map es =>
    cases h
    exact ⟨es, rfl, rfl⟩
  | _ => cases h

/-- One more pair in the segment is one more pair in the whole. -/
theorem joined_insert {limits : Limits} {head? : Option Value} {ms fs : List (String × Value)}
    (hms : Keyed.Sorted ms) (h : joined limits head? (.map ms) = .ok (.map fs)) (key : String)
    (w : Value) :
    joined limits head? (.map (Keyed.insert key w ms)) = .ok (.map (Keyed.insert key w fs)) := by
  cases head? with
  | none =>
    cases h
    rfl
  | some head =>
    obtain ⟨es, rfl, rfl⟩ := extend_map_ok h
    rw [← Keyed.insertAll_insert hms]
    rfl

/-- Puts the value of an expression under its key. -/
def putEntry (h : Host) (call : Caller) (es : List (String × Value)) (e : String × Expr) :
    Eval (List (String × Value)) := do
  let v ← Evaluation.expr h call e.2
  return Keyed.insert e.1 v es

theorem entries_eq_foldlM (h : Host) (call : Caller) (es : List (String × Expr))
    (m : List (String × Value)) :
    Evaluation.entries h call m es = es.foldlM (putEntry h call) m := by
  induction es generalizing m with
  | nil => rfl
  | cons e es ih =>
    rw [Evaluation.entries, List.foldlM_cons, putEntry, bind_assoc]
    refine congrArg _ (funext fun v => ?_)
    rw [pure_bind]
    exact ih _

section
variable {L : Linked} {k : Nat} {call : Caller}

theorem makes_maps (h : Host) (c : Code) : Makes h c maps := by
  intro m ws segment done next t hbuild hlength hfetch hvalues
  rw [Machine.step_makeMap hfetch hlength.symm hvalues, show mapOf [] ws = _ from hbuild]
  rfl

theorem assembles_maps (L : Linked) : Assembles L maps where
  make := makes_maps L.host L.code
  start hw _ := by
    obtain ⟨fs, rfl⟩ := hw.exists_map
    exact ⟨.map [], rfl, rfl⟩

/-- A code that pushes the key of an entry and then computes its value. -/
def ComputesEntry (L : Linked) (k : Nat) (call : Caller) (e : String × Expr)
    (code : Compilation.Code) : Prop :=
  Constant.string e.1 ∈ L.pool.constants ∧ ∃ first,
    code = .instr (.pushConst (L.pool.indexOf (.string e.1))) :: first ∧
      L.Computes k first (Evaluation.expr L.host call e.2)

theorem entry_map (hcall : ∀ f vs, (call f vs).Grows) {e : String × Expr} {code : Compilation.Code}
    (he : ComputesEntry L k call e code) : Entry L maps k (putEntry L.host call) e code := by
  intro st stack head? ws done rest es stop off next frames s u hpart hplaced hnext htwin
  obtain ⟨hkey, first, rfl, hfirst⟩ := he
  rw [Compilation.size_cons, ← Nat.add_assoc] at hnext
  have hstep := Machine.step_pushConst (h := L.host) (m := ⟨off, stack, frames, u⟩) hplaced.fetch
    (L.constant_string hkey)
  have hgrows : (putEntry L.host call es e).Grows :=
    (Evaluation.grows_expr hcall e.2).bind fun _ => Eval.Grows.pure _
  refine Linked.follows_push hgrows htwin hstep ?_
  refine (hfirst hplaced.tail hnext htwin).bind (fun v => Eval.Grows.pure _) ?_
  rintro v s m ⟨w, hw, u, htwin, rfl⟩
  obtain ⟨segment, whole, hbuild, hjoined, halike⟩ := hpart.made
  obtain ⟨ms, rfl, hsorted⟩ := mapOf_ok .nil hbuild
  obtain ⟨fs, rfl⟩ := Alike.exists_map halike
  refine .done rfl ⟨[.string e.1, w], (stack.push (.string e.1)).push w, ⟨?_, ?_, trivial, ?_⟩, u,
    htwin, rfl⟩
  · rw [List.length_append, hpart.length]
    rfl
  · rw [Stack.values_push, Stack.values_push, hpart.values, List.reverse_append]
    rfl
  · exact ⟨_, _, mapOf_append hpart.length hbuild e.1 w, joined_insert hsorted hjoined e.1 w,
      Alike.insert halike hw e.1⟩

/-- The code of a map literal computes it. -/
theorem computes_map (hcall : ∀ f vs, (call f vs).Grows) {es : List (String × Expr)}
    {codes : List Compilation.Code} (hes : List.Forall₂ (ComputesEntry L k call) es codes) :
    L.Computes k (segments .makeMap true 0 codes) (Evaluation.expr L.host call (.map es)) := by
  intro stop off next st frames s u hplaced hnext htwin
  have heval : Evaluation.expr L.host call (.map es) =
      es.foldlM (putEntry L.host call) [] >>= fun m => pure (.map m) := by
    rw [Evaluation.expr, entries_eq_foldlM]
  have hempty : Alike L.pool L.table (.map []) (.map []) := by
    refine .refl ?_
    rw [Value.functions_map]
    rfl
  have hpart : Part L maps st none [] 0 es.length [] st :=
    ⟨rfl, rfl, trivial, .map [], .map [], rfl, rfl, hempty⟩
  have hentries : List.Forall₂ (Entry L maps k (putEntry L.host call)) es codes :=
    hes.imp fun e code he => entry_map hcall he
  rw [heval]
  refine (follows_segments (assembles_maps L) ?_ hentries hpart (fun _ => rfl) hplaced hnext htwin).bind
    (fun _ => Eval.Grows.pure _) ?_
  · exact fun m e => (Evaluation.grows_expr hcall e.2).bind fun _ => Eval.Grows.pure _
  · rintro m s m' hpushes
    exact .done rfl hpushes

end

end Persona.Simulation
