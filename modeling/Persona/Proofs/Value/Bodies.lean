import Persona.Value

/-! Values with other function bodies.

No operation looks into the body of a function. To say so, all bodies in a value are
replaced at once, each by one that may depend on the function; what a value is otherwise
stays the same, its text and its equality with other values included. A value whose
functions are all of a certain sort is one that is fixed when the bodies of the other
functions are replaced. -/
namespace Persona

namespace Keyed

/-- The same keys with other values. -/
def mapValues (f : α → β) (m : List (String × α)) : List (String × β) := m.map fun e => (e.1, f e.2)

@[simp] theorem mapValues_nil (f : α → β) : mapValues f [] = [] := rfl

@[simp] theorem mapValues_cons (f : α → β) (k : String) (x : α) (m : List (String × α)) :
    mapValues f ((k, x) :: m) = (k, f x) :: mapValues f m := rfl

theorem mapValues_zip (f : α → β) (keys : List String) (xs : List α) :
    mapValues f (keys.zip xs) = keys.zip (xs.map f) := (List.zip_map_right ..).symm

theorem get?_mapValues (f : α → β) (key : String) (m : List (String × α)) :
    get? key (mapValues f m) = (get? key m).map f := by
  induction m with
  | nil => rfl
  | cons e m ih =>
    obtain ⟨k, x⟩ := e
    by_cases h : k = key
    · simp [get?, h]
    · simp [get?, h, ih]

theorem insert_mapValues (f : α → β) (key : String) (x : α) (m : List (String × α)) :
    insert key (f x) (mapValues f m) = mapValues f (insert key x m) := by
  induction m with
  | nil => rfl
  | cons e m ih =>
    obtain ⟨k, y⟩ := e
    by_cases hlt : key < k
    · simp [insert, hlt]
    by_cases heq : key = k
    · simp [insert, heq]
    · simp [insert, hlt, heq, ih]

theorem insertAll_mapValues (f : α → β) (es m : List (String × α)) :
    insertAll (mapValues f es) (mapValues f m) = mapValues f (insertAll es m) := by
  induction es generalizing m with
  | nil => rfl
  | cons e es ih =>
    obtain ⟨k, x⟩ := e
    show insertAll (mapValues f es) (insert k (f x) (mapValues f m)) = _
    rw [insert_mapValues, ih]
    rfl

end Keyed

namespace Value

variable {f : Function → FunctionBody}

mutual

/-- The value with other bodies in all its functions. -/
def mapBodies (f : Function → FunctionBody) : Value → Value
  | array ⟨items⟩ => array ⟨mapItems f items⟩
  | map entries => map (mapEntries f entries)
  | function g => function { g with body := f g }
  | v => v
termination_by structural v => v

def mapItems (f : Function → FunctionBody) : List Value → List Value
  | [] => []
  | v :: vs => mapBodies f v :: mapItems f vs
termination_by structural vs => vs

def mapEntries (f : Function → FunctionBody) : List (String × Value) → List (String × Value)
  | [] => []
  | (k, v) :: es => (k, mapBodies f v) :: mapEntries f es
termination_by structural es => es

end

mutual

/-- All functions in a value, however deep. -/
def functions : Value → List Function
  | array ⟨items⟩ => functionsOfItems items
  | map entries => functionsOfEntries entries
  | function g => [g]
  | _ => []
termination_by structural v => v

def functionsOfItems : List Value → List Function
  | [] => []
  | v :: vs => functions v ++ functionsOfItems vs
termination_by structural vs => vs

def functionsOfEntries : List (String × Value) → List Function
  | [] => []
  | (_, v) :: es => functions v ++ functionsOfEntries es
termination_by structural es => es

end

/-! ### Equations -/

theorem mapItems_eq (vs : List Value) : mapItems f vs = vs.map (mapBodies f) := by
  induction vs with
  | nil => rfl
  | cons v vs ih => exact congrArg (mapBodies f v :: ·) ih

theorem mapEntries_eq (es : List (String × Value)) :
    mapEntries f es = Keyed.mapValues (mapBodies f) es := by
  induction es with
  | nil => rfl
  | cons e es ih => exact congrArg ((e.1, mapBodies f e.2) :: ·) ih

@[simp] theorem mapBodies_null : mapBodies f null = null := rfl

@[simp] theorem mapBodies_bool (b : Bool) : mapBodies f (bool b) = bool b := rfl

@[simp] theorem mapBodies_number (x : Float) : mapBodies f (number x) = number x := rfl

@[simp] theorem mapBodies_string (s : String) : mapBodies f (string s) = string s := rfl

@[simp] theorem mapBodies_builtin (b : Builtin) : mapBodies f (builtin b) = builtin b := rfl

@[simp] theorem mapBodies_function (g : Function) :
    mapBodies f (function g) = function { g with body := f g } := rfl

@[simp] theorem mapBodies_array (items : Array Value) :
    mapBodies f (array items) = array (items.map (mapBodies f)) := by
  obtain ⟨vs⟩ := items
  show array ⟨mapItems f vs⟩ = _
  rw [mapItems_eq, List.map_toArray]

@[simp] theorem mapBodies_map (es : List (String × Value)) :
    mapBodies f (map es) = map (Keyed.mapValues (mapBodies f) es) := by
  show map (mapEntries f es) = _
  rw [mapEntries_eq]

theorem functionsOfItems_eq (vs : List Value) : functionsOfItems vs = vs.flatMap functions := by
  induction vs with
  | nil => rfl
  | cons v vs ih =>
    rw [List.flatMap_cons, ← ih]
    rfl

theorem functionsOfEntries_eq (es : List (String × Value)) :
    functionsOfEntries es = es.flatMap fun e => e.2.functions := by
  induction es with
  | nil => rfl
  | cons e es ih =>
    rw [List.flatMap_cons, ← ih]
    rfl

@[simp] theorem functions_array (items : Array Value) :
    (array items).functions = items.toList.flatMap functions := by
  obtain ⟨vs⟩ := items
  exact functionsOfItems_eq vs

@[simp] theorem functions_map (es : List (String × Value)) :
    (map es).functions = es.flatMap fun e => e.2.functions := functionsOfEntries_eq es

/-! ### What other bodies do not change -/

@[simp] theorem kind_mapBodies (v : Value) : (v.mapBodies f).kind = v.kind := by
  cases v with
  | array items => rw [mapBodies_array]; rfl
  | _ => rfl

@[simp] theorem isTruthy_mapBodies (v : Value) : (v.mapBodies f).isTruthy = v.isTruthy := by
  cases v with
  | array items => rw [mapBodies_array]; rfl
  | _ => rfl

@[simp] theorem string?_mapBodies (v : Value) : (v.mapBodies f).string? = v.string? := by
  cases v with
  | array items => rw [mapBodies_array]; rfl
  | _ => rfl

@[simp] theorem integer?_mapBodies (v : Value) : (v.mapBodies f).integer? = v.integer? := by
  cases v with
  | array items => rw [mapBodies_array]; rfl
  | _ => rfl

mutual

theorem beq_mapBodies : ∀ a b : Value, beq (a.mapBodies f) (b.mapBodies f) = beq a b
  | array ⟨xs⟩, b => by
    cases b with
    | array ys => exact listBeq_mapItems xs ys.toList
    | _ => rfl
  | map m, b => by
    cases b with
    | map n => exact entriesBeq_mapEntries m n
    | array ys => cases ys; rfl
    | _ => rfl
  | null, b | bool _, b | number _, b | string _, b | function _, b | builtin _, b => by
    cases b with
    | array ys => cases ys; rfl
    | _ => rfl
termination_by structural a => a

theorem listBeq_mapItems : ∀ xs ys : List Value,
    listBeq (mapItems f xs) (mapItems f ys) = listBeq xs ys
  | [], [] => rfl
  | [], _ :: _ => rfl
  | _ :: _, [] => rfl
  | x :: xs, y :: ys => by
    show (beq (mapBodies f x) (mapBodies f y) && listBeq (mapItems f xs) (mapItems f ys)) = _
    rw [beq_mapBodies x y, listBeq_mapItems xs ys]
    rfl
termination_by structural xs => xs

theorem entriesBeq_mapEntries : ∀ xs ys : List (String × Value),
    entriesBeq (mapEntries f xs) (mapEntries f ys) = entriesBeq xs ys
  | [], [] => rfl
  | [], _ :: _ => rfl
  | _ :: _, [] => rfl
  | (k, x) :: xs, (l, y) :: ys => by
    show (k == l && beq (mapBodies f x) (mapBodies f y) &&
      entriesBeq (mapEntries f xs) (mapEntries f ys)) = _
    rw [beq_mapBodies x y, entriesBeq_mapEntries xs ys]
    rfl
termination_by structural xs => xs

end

mutual

theorem write_mapBodies : ∀ (v : Value) (before : String),
    write before (v.mapBodies f) = write before v
  | array ⟨items⟩, before => congrArg (· ++ "]") (writeItems_mapItems items (before ++ "[") "")
  | map es, before => congrArg (· ++ "\x7d") (writeEntries_mapEntries es (before ++ "\x7b") "")
  | null, _ | bool _, _ | number _, _ | string _, _ | function _, _ | builtin _, _ => rfl
termination_by structural v => v

theorem writeItems_mapItems : ∀ (vs : List Value) (before separator : String),
    writeItems before separator (mapItems f vs) = writeItems before separator vs
  | [], _, _ => rfl
  | v :: vs, before, separator => by
    have hv := write_mapBodies v (before ++ separator)
    have hrest := fun before => writeItems_mapItems vs before ", "
    cases v with
    | string s => exact hrest _
    | array items =>
      obtain ⟨items⟩ := items
      exact (congrArg (writeItems · ", " (mapItems f vs)) hv).trans (hrest _)
    | _ => exact (congrArg (writeItems · ", " (mapItems f vs)) hv).trans (hrest _)
termination_by structural vs => vs

theorem writeEntries_mapEntries : ∀ (es : List (String × Value)) (before separator : String),
    writeEntries before separator (mapEntries f es) = writeEntries before separator es
  | [], _, _ => rfl
  | (k, v) :: es, before, separator => by
    have hv := write_mapBodies v (before ++ separator ++ Text.quote k ++ ": ")
    have hrest := fun before => writeEntries_mapEntries es before ", "
    cases v with
    | string s => exact hrest _
    | array items =>
      obtain ⟨items⟩ := items
      exact (congrArg (writeEntries · ", " (mapEntries f es)) hv).trans (hrest _)
    | _ => exact (congrArg (writeEntries · ", " (mapEntries f es)) hv).trans (hrest _)
termination_by structural es => es

end

@[simp] theorem text_mapBodies (v : Value) : (v.mapBodies f).text = v.text := write_mapBodies v ""

/-! ### Fixed values -/

mutual

/-- A value is fixed exactly if the bodies of all its functions are. -/
theorem mapBodies_eq_self_iff : ∀ v : Value,
    v.mapBodies f = v ↔ ∀ g ∈ v.functions, f g = g.body
  | array ⟨items⟩ => by
    show array ⟨mapItems f items⟩ = array ⟨items⟩ ↔ ∀ g ∈ functionsOfItems items, f g = g.body
    rw [← mapItems_eq_self_iff items, array.injEq, Array.mk.injEq]
  | map es => by
    show map (mapEntries f es) = map es ↔ ∀ g ∈ functionsOfEntries es, f g = g.body
    rw [← mapEntries_eq_self_iff es, map.injEq]
  | function ⟨id, params, body⟩ => by
    show function ⟨id, params, f ⟨id, params, body⟩⟩ = function ⟨id, params, body⟩ ↔
      ∀ g ∈ [Function.mk id params body], f g = g.body
    simp
  | null | bool _ | number _ | string _ | builtin _ =>
    ⟨fun _ g hg => absurd hg (List.not_mem_nil), fun _ => rfl⟩
termination_by structural v => v

theorem mapItems_eq_self_iff : ∀ vs : List Value,
    mapItems f vs = vs ↔ ∀ g ∈ functionsOfItems vs, f g = g.body
  | [] => ⟨fun _ g hg => absurd hg (List.not_mem_nil), fun _ => rfl⟩
  | v :: vs => by
    show mapBodies f v :: mapItems f vs = v :: vs ↔ ∀ g ∈ functions v ++ functionsOfItems vs, _
    rw [List.cons.injEq, List.forall_mem_append, mapBodies_eq_self_iff v, mapItems_eq_self_iff vs]
termination_by structural vs => vs

theorem mapEntries_eq_self_iff : ∀ es : List (String × Value),
    mapEntries f es = es ↔ ∀ g ∈ functionsOfEntries es, f g = g.body
  | [] => ⟨fun _ g hg => absurd hg (List.not_mem_nil), fun _ => rfl⟩
  | (k, v) :: es => by
    show (k, mapBodies f v) :: mapEntries f es = (k, v) :: es ↔
      ∀ g ∈ functions v ++ functionsOfEntries es, _
    rw [List.cons.injEq, Prod.mk.injEq, List.forall_mem_append, mapBodies_eq_self_iff v,
      mapEntries_eq_self_iff es]
    exact and_congr ⟨And.right, fun h => ⟨rfl, h⟩⟩ Iff.rfl
termination_by structural es => es

end

/-! ### Sorts of functions -/

end Value

namespace FunctionBody

/-- A body that is not this one. -/
def other : FunctionBody → FunctionBody
  | script _ => compiled 0
  | compiled _ => script []

theorem other_ne (b : FunctionBody) : b.other ≠ b := by
  cases b with
  | script ss => exact fun h => nomatch h
  | compiled entry => exact fun h => nomatch h

open Classical in
/-- The bodies of functions of a sort as they are, and others for all other functions. -/
noncomputable def only (sort : Function → Prop) (g : Function) : FunctionBody :=
  if sort g then g.body else g.body.other

theorem only_eq_self_iff {sort : Function → Prop} {g : Function} :
    only sort g = g.body ↔ sort g := by
  by_cases h : sort g
  · rw [only, if_pos h]
    exact ⟨fun _ => h, fun _ => rfl⟩
  · rw [only, if_neg h]
    exact ⟨fun heq => absurd heq g.body.other_ne, fun hg => absurd hg h⟩

end FunctionBody

namespace Value

/-- All functions in the value are of a sort. -/
def HoldsOnly (sort : Function → Prop) (v : Value) : Prop := ∀ g ∈ v.functions, sort g

/-- All functions in the value have bodies of a sort. -/
def Holds (sort : FunctionBody → Prop) (v : Value) : Prop := ∀ g ∈ v.functions, sort g.body

theorem holds_iff {sort : Function → Prop} {v : Value} :
    v.HoldsOnly sort ↔ v.mapBodies (.only sort) = v := by
  rw [mapBodies_eq_self_iff]
  exact forall₂_congr fun g _ => FunctionBody.only_eq_self_iff.symm

theorem map_eq_of_holds {sort : Function → Prop} {vs : List Value} (h : ∀ v ∈ vs, v.HoldsOnly sort) :
    vs.map (mapBodies (.only sort)) = vs := by
  rw [List.map_congr_left fun v hv => holds_iff.1 (h v hv), List.map_id']

theorem holds_items {sort : Function → Prop} {items : Array Value} :
    (array items).HoldsOnly sort ↔ ∀ v ∈ items, v.HoldsOnly sort := by
  unfold HoldsOnly
  rw [functions_array]
  constructor
  · exact fun h v hv g hg => h g (List.mem_flatMap.2 ⟨v, Array.mem_toList_iff.2 hv, hg⟩)
  · intro h g hg
    obtain ⟨v, hv, hgv⟩ := List.mem_flatMap.1 hg
    exact h v (Array.mem_toList_iff.1 hv) g hgv

theorem holds_map {sort : Function → Prop} {entries : List (String × Value)} :
    (map entries).HoldsOnly sort ↔ ∀ e ∈ entries, e.2.HoldsOnly sort := by
  unfold HoldsOnly
  rw [functions_map]
  constructor
  · exact fun h e he g hg => h g (List.mem_flatMap.2 ⟨e, he, hg⟩)
  · intro h g hg
    obtain ⟨e, he, hge⟩ := List.mem_flatMap.1 hg
    exact h e he g hge

end Value

end Persona
