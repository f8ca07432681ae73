import Persona.Builtin.Call
import Persona.Proofs.Decimal.Order

/-! Equality as programs see it.

Two values are equal if they are put together in the same way out of equal parts. Whatever
relation goes from parts to wholes in this way holds between equal values: that the values are
equal the other way round, that both are equal to a third, that both are printed alike. Only a
value with NaN inside it is not equal to itself. -/
namespace Persona.Value

/-! ### Parts -/

theorem listBeq_iff {xs ys : List Value} :
    listBeq xs ys = true ↔ List.Forall₂ (fun x y => beq x y = true) xs ys := by
  induction xs generalizing ys with
  | nil => cases ys <;> simp [listBeq]
  | cons x xs ih =>
    cases ys with
    | nil => simp [listBeq]
    | cons y ys => simp [listBeq, ih]

theorem entriesBeq_iff {m n : List (String × Value)} :
    entriesBeq m n = true ↔ List.Forall₂ (fun e f => e.1 = f.1 ∧ beq e.2 f.2 = true) m n := by
  induction m generalizing n with
  | nil => cases n <;> simp [entriesBeq]
  | cons e m ih =>
    cases n with
    | nil => simp [entriesBeq]
    | cons f n => simp [entriesBeq, ih]

/-- What holds between two values if it holds between their parts. -/
structure Congruence (R : Value → Value → Prop) : Prop where
  null : R null null
  bool : ∀ b, R (bool b) (bool b)
  number : ∀ {x y}, (x == y) = true → R (number x) (number y)
  string : ∀ s, R (string s) (string s)
  array : ∀ {xs ys}, List.Forall₂ R xs ys → R (array ⟨xs⟩) (array ⟨ys⟩)
  map : ∀ {m n : List (String × Value)}, List.Forall₂ (fun e f => e.1 = f.1 ∧ R e.2 f.2) m n → R (map m) (map n)
  function : ∀ {f g : Function}, f.id = g.id → R (function f) (function g)
  builtin : ∀ b, R (builtin b) (builtin b)

namespace Congruence
variable {R : Value → Value → Prop}

mutual

/-- Between equal values holds whatever goes from parts to wholes. -/
theorem of_beq (h : Congruence R) : ∀ a b : Value, beq a b = true → R a b
  | .null, b, hab => by
    cases b with
    | null => exact h.null
    | _ => cases hab
  | .bool x, b, hab => by
    cases b with
    | bool y =>
      obtain rfl : x = y := by simpa [beq] using hab
      exact h.bool x
    | _ => cases hab
  | .number x, b, hab => by
    cases b with
    | number y => exact h.number hab
    | _ => cases hab
  | .string s, b, hab => by
    cases b with
    | string t =>
      obtain rfl : s = t := by simpa [beq] using hab
      exact h.string s
    | _ => cases hab
  | .array ⟨xs⟩, b, hab => by
    cases b with
    | array ys => exact h.array (of_listBeq h xs ys.toList hab)
    | _ => cases hab
  | .map m, b, hab => by
    cases b with
    | map n => exact h.map (of_entriesBeq h m n hab)
    | _ => cases hab
  | .function f, b, hab => by
    cases b with
    | function g => exact h.function (by simpa [beq] using hab)
    | _ => cases hab
  | .builtin x, b, hab => by
    cases b with
    | builtin y =>
      obtain rfl : x = y := by simpa [beq] using hab
      exact h.builtin x
    | _ => cases hab
termination_by structural a => a

theorem of_listBeq (h : Congruence R) : ∀ xs ys : List Value, listBeq xs ys = true → List.Forall₂ R xs ys
  | [], [], _ => .nil
  | x :: xs, y :: ys, hab => by
    have hparts : beq x y = true ∧ listBeq xs ys = true := by simpa [listBeq] using hab
    exact .cons (of_beq h x y hparts.1) (of_listBeq h xs ys hparts.2)
termination_by structural xs => xs

theorem of_entriesBeq (h : Congruence R) : ∀ m n : List (String × Value), entriesBeq m n = true →
    List.Forall₂ (fun e f => e.1 = f.1 ∧ R e.2 f.2) m n
  | [], [], _ => .nil
  | (k, x) :: m, (l, y) :: n, hab => by
    have hparts : (k = l ∧ beq x y = true) ∧ entriesBeq m n = true := by simpa [entriesBeq] using hab
    exact .cons ⟨hparts.1.1, of_beq h x y hparts.1.2⟩ (of_entriesBeq h m n hparts.2)
termination_by structural m => m

end

end Congruence

/-! ### Both ways and on to a third -/

theorem congruence_symm : Congruence fun a b => beq b a = true where
  null := rfl
  bool _ := beq_self_eq_true _
  number h := Decimal.beq_symm h
  string _ := beq_self_eq_true _
  array h := listBeq_iff.2 h.flip
  map h := entriesBeq_iff.2 (h.flip.imp fun _ _ he => ⟨he.1.symm, he.2⟩)
  function h := beq_iff_eq.2 h.symm
  builtin _ := beq_self_eq_true _

theorem forall₂_comp {R : α → β → Prop} {S : β → γ → Prop} {T : α → γ → Prop} {xs : List α} {ys : List β}
    {zs : List γ} (h : ∀ {x y z}, R x y → S y z → T x z) (hxy : List.Forall₂ R xs ys)
    (hyz : List.Forall₂ S ys zs) : List.Forall₂ T xs zs := by
  induction hxy generalizing zs with
  | nil =>
    cases hyz
    exact .nil
  | cons hr _ ih =>
    cases hyz with
    | cons hs hrest => exact .cons (h hr hs) (ih hrest)

theorem congruence_trans : Congruence fun a b => ∀ c, beq b c = true → beq a c = true where
  null _ h := h
  bool _ _ h := h
  number {x y} h c hc := by
    cases c with
    | number z => exact Decimal.beq_trans h hc
    | _ => cases hc
  string _ _ h := h
  array {xs ys} h c hc := by
    cases c with
    | array zs => exact listBeq_iff.2 (forall₂_comp (fun hr => hr _) h (listBeq_iff.1 hc))
    | _ => cases hc
  map {m n} h c hc := by
    cases c with
    | map l =>
      apply entriesBeq_iff.2
      exact forall₂_comp (fun hr hs => ⟨hr.1.trans hs.1, hr.2 _ hs.2⟩) h (entriesBeq_iff.1 hc)
    | _ => cases hc
  function {f g} h c hc := by
    cases c with
    | function k => exact beq_iff_eq.2 (h.trans (beq_iff_eq.1 hc))
    | _ => cases hc
  builtin _ _ h := h

/-! ### Values that are equal to themselves -/

/-- A value is inside another if it is the other or is inside one of its items or entries. -/
inductive Inside (v : Value) : Value → Prop
  | self : Inside v v
  | item {w : Value} {items : Array Value} : Inside v w → w ∈ items → Inside v (array items)
  | entry {e : String × Value} {entries : List (String × Value)} : Inside v e.2 → e ∈ entries →
    Inside v (map entries)

theorem beq_self_of_inside {v w : Value} (h : Inside v w) (hw : beq w w = true) : beq v v = true := by
  induction h with
  | self => exact hw
  | item _ hmem ih =>
    have hitems := List.forall₂_same.1 (listBeq_iff.1 hw)
    exact ih (hitems _ (Array.mem_toList_iff.2 hmem))
  | entry _ hmem ih =>
    have hentries := List.forall₂_same.1 (entriesBeq_iff.1 hw)
    exact ih (hentries _ hmem).2

mutual

theorem beq_self_of_no_nan : ∀ a : Value, (∀ x, Inside (number x) a → x.isNaN = false) → beq a a = true
  | null, _ => rfl
  | bool _, _ => beq_self_eq_true _
  | number x, h => Decimal.beq_self_iff.2 (h x .self)
  | string _, _ => beq_self_eq_true _
  | array ⟨xs⟩, h => listBeq_self_of_no_nan xs fun _ hv x hx => h x (.item hx (Array.mem_toList_iff.1 hv))
  | map m, h => entriesBeq_self_of_no_nan m fun _ he x hx => h x (.entry hx he)
  | function _, _ => beq_self_eq_true _
  | builtin _, _ => beq_self_eq_true _
termination_by structural a => a

theorem listBeq_self_of_no_nan : ∀ xs : List Value,
    (∀ v ∈ xs, ∀ x, Inside (number x) v → x.isNaN = false) → listBeq xs xs = true
  | [], _ => rfl
  | v :: vs, h => by
    have hv := beq_self_of_no_nan v (h v (List.mem_cons_self ..))
    have hvs := listBeq_self_of_no_nan vs fun w hw => h w (List.mem_cons_of_mem _ hw)
    rw [listBeq, hv, hvs]
    rfl
termination_by structural xs => xs

theorem entriesBeq_self_of_no_nan : ∀ m : List (String × Value),
    (∀ e ∈ m, ∀ x, Inside (number x) e.2 → x.isNaN = false) → entriesBeq m m = true
  | [], _ => rfl
  | (k, v) :: m, h => by
    have hv := beq_self_of_no_nan v (h (k, v) (List.mem_cons_self ..))
    have hm := entriesBeq_self_of_no_nan m fun e he => h e (List.mem_cons_of_mem _ he)
    rw [entriesBeq, beq_self_eq_true, hv, hm]
    rfl
termination_by structural m => m

end

/-! ### What equal values have in common -/

/-- The text of a value inside an array or a map. -/
def writeNested (before : String) : Value → String
  | string s => before ++ Text.quote s
  | v => write before v

theorem writeItems_cons (before separator : String) (v : Value) (vs : List Value) :
    writeItems before separator (v :: vs) = writeItems (writeNested (before ++ separator) v) ", " vs := by
  cases v <;> rfl

theorem writeEntries_cons (before separator key : String) (v : Value) (es : List (String × Value)) :
    writeEntries before separator ((key, v) :: es) =
      writeEntries (writeNested (before ++ separator ++ Text.quote key ++ ": ") v) ", " es := by
  cases v <;> rfl

/-- The values are of one kind, hold alike as conditions, are printed alike and have the same
length and the same keys, as far as their kind has any. -/
structure Resembles (a b : Value) : Prop where
  kind : a.kind = b.kind
  isTruthy : a.isTruthy = b.isTruthy
  write : ∀ before, write before a = write before b
  length : Builtin.length a = Builtin.length b
  keys : Builtin.keysOf a = Builtin.keysOf b

namespace Resembles

theorem refl (a : Value) : Resembles a a := ⟨rfl, rfl, fun _ => rfl, rfl, rfl⟩

theorem writeNested {a b : Value} (h : Resembles a b) (before : String) :
    writeNested before a = writeNested before b := by
  cases a with
  | string s =>
    cases b with
    | string t =>
      have hst : "" ++ s = "" ++ t := h.write ""
      simp only [String.empty_append] at hst
      rw [hst]
    | _ => cases h.kind
  | _ =>
    cases b with
    | string t => cases h.kind
    | _ => exact h.write before

theorem writeItems {xs ys : List Value} (h : List.Forall₂ Resembles xs ys) (before separator : String) :
    writeItems before separator xs = writeItems before separator ys := by
  induction h generalizing before separator with
  | nil => rfl
  | cons hx _ ih => rw [writeItems_cons, writeItems_cons, hx.writeNested, ih]

theorem writeEntries {m n : List (String × Value)}
    (h : List.Forall₂ (fun e f => e.1 = f.1 ∧ Resembles e.2 f.2) m n) (before separator : String) :
    writeEntries before separator m = writeEntries before separator n := by
  induction h generalizing before separator with
  | nil => rfl
  | cons he _ ih =>
    next e f m n _ =>
    obtain ⟨k, x⟩ := e
    obtain ⟨l, y⟩ := f
    obtain ⟨rfl, hx⟩ := he
    rw [writeEntries_cons, writeEntries_cons, hx.writeNested, ih]

end Resembles

theorem keysOf_map (m : List (String × Value)) :
    Builtin.keysOf (map m) = .ok (array ((m.map Prod.fst).map string).toArray) := by
  simp [Builtin.keysOf]

theorem keys_eq {R : Value → Value → Prop} {m n : List (String × Value)}
    (h : List.Forall₂ (fun e f => e.1 = f.1 ∧ R e.2 f.2) m n) : m.map Prod.fst = n.map Prod.fst := by
  induction h with
  | nil => rfl
  | cons he _ ih => rw [List.map_cons, List.map_cons, he.1, ih]

theorem congruence_resembles : Congruence Resembles where
  null := .refl _
  bool _ := .refl _
  number h := {
    kind := rfl
    isTruthy := Decimal.bne_zero_of_beq h
    write := fun before => congrArg (before ++ ·) (Decimal.number_of_beq h)
    length := rfl
    keys := rfl }
  string _ := .refl _
  array h := {
    kind := rfl
    isTruthy := rfl
    write := fun before => congrArg (· ++ "]") (Resembles.writeItems h (before ++ "[") "")
    length := congrArg (fun n : Nat => Except.ok (Value.number n.toFloat)) h.length_eq
    keys := rfl }
  map {m n} h := {
    kind := rfl
    isTruthy := rfl
    write := fun before => congrArg (· ++ "\x7d") (Resembles.writeEntries h (before ++ "\x7b") "")
    length := congrArg (fun n : Nat => Except.ok (Value.number n.toFloat)) h.length_eq
    keys := by rw [keysOf_map, keysOf_map, keys_eq h] }
  function {f g} h := {
    kind := rfl
    isTruthy := rfl
    write := fun before => congrArg (fun id : FunctionId => before ++ s!"<fn {id.name}>") h
    length := rfl
    keys := rfl }
  builtin _ := .refl _

/-- Equality is symmetric and transitive, and reflexive but for values with NaN inside. Equal
values cannot be told apart by their type, as conditions, by their text, their length or their
keys. -/
theorem beq_congruence (a b c : Value) :
    ((a == b) = true → (b == a) = true) ∧
      ((a == b) = true → (b == c) = true → (a == c) = true) ∧
      ((a == a) = true ↔ ∀ x, Inside (number x) a → x.isNaN = false) ∧
      ((a == b) = true → a.kind.name = b.kind.name ∧ a.isTruthy = b.isTruthy ∧ a.text = b.text ∧
        Builtin.length a = Builtin.length b ∧ Builtin.keysOf a = Builtin.keysOf b) := by
  refine ⟨congruence_symm.of_beq a b, fun hab => congruence_trans.of_beq a b hab c, ⟨?_, ?_⟩, ?_⟩
  · exact fun ha x hx => Decimal.beq_self_iff.1 (beq_self_of_inside hx ha)
  · exact beq_self_of_no_nan a
  · intro hab
    have h := congruence_resembles.of_beq a b hab
    exact ⟨congrArg Kind.name h.kind, h.isTruthy, h.write "", h.length, h.keys⟩

/-- Two arrays that differ in the sign of a zero. -/
theorem beq_congruence_zeros : (array #[number 0.0, string "a"] == array #[number (-0.0), string "a"]) = true ∧
    (array #[number (-0.0), string "a"] == array #[number 0.0, string "a"]) = true ∧
      (array #[number 0.0, string "a"]).text = (array #[number (-0.0), string "a"]).text ∧
        (array #[number (0.0 / 0.0)] == array #[number (0.0 / 0.0)]) = false := by
  have hequal : (array #[number 0.0, string "a"] == array #[number (-0.0), string "a"]) = true := by decide +kernel
  obtain ⟨hsymm, -, -, hlike⟩ := beq_congruence (array #[number 0.0, string "a"]) (array #[number (-0.0), string "a"]) null
  refine ⟨hequal, hsymm hequal, (hlike hequal).2.2.1, Bool.eq_false_iff.2 fun hself => ?_⟩
  have hnan := (beq_congruence (array #[number (0.0 / 0.0)]) null null).2.2.1.1 hself
  exact absurd (hnan (0.0 / 0.0) (.item .self (by simp))) (by decide +kernel)

end Persona.Value
