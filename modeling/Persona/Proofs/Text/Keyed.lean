import Persona.Text.Keyed

/-! The order of entries.

A key has one place among the others, so that pairs with different keys may be put into
a map in any order. Pairs that come out of a map can be put into another one instead of
those that went into the first. -/
namespace Persona.Keyed

theorem mem_of_mem_insert {key : String} {x : α} {m : List (String × α)} {e : String × α}
    (he : e ∈ insert key x m) : e = (key, x) ∨ e ∈ m := by
  induction m with
  | nil => exact .inl (List.mem_singleton.1 he)
  | cons first rest ih =>
    obtain ⟨k, y⟩ := first
    unfold insert at he
    split at he
    · exact List.mem_cons.1 he
    split at he
    · exact (List.mem_cons.1 he).imp_right (List.mem_cons_of_mem _)
    · rcases List.mem_cons.1 he with rfl | he
      · exact .inr (List.mem_cons_self ..)
      · exact (ih he).imp_right (List.mem_cons_of_mem _)

theorem key_of_mem_insert {key : String} {x : α} {m : List (String × α)} {e : String × α}
    (he : e ∈ insert key x m) : e.1 = key ∨ e ∈ m :=
  (mem_of_mem_insert he).imp_left (congrArg Prod.fst)

theorem get?_eq_none {key : String} {m : List (String × α)} (h : ∀ e ∈ m, e.1 ≠ key) :
    get? key m = none := by
  induction m with
  | nil => rfl
  | cons e m ih =>
    rw [get?, if_neg (h e (List.mem_cons_self ..))]
    exact ih fun e' he => h e' (List.mem_cons_of_mem _ he)

theorem mem_of_get? {key : String} {x : α} {m : List (String × α)} (h : get? key m = some x) :
    (key, x) ∈ m := by
  induction m with
  | nil => cases h
  | cons e m ih =>
    obtain ⟨k, y⟩ := e
    by_cases hk : k = key
    · rw [get?, if_pos hk] at h
      obtain rfl := Option.some.inj h
      rw [hk]
      exact List.mem_cons_self ..
    · rw [get?, if_neg hk] at h
      exact List.mem_cons_of_mem _ (ih h)

/-! ### Order -/

theorem lt_or_lt_of_ne {a b : String} (hab : a ≠ b) : a < b ∨ b < a := by
  by_cases h : a < b
  · exact .inl h
  · by_cases h' : b < a
    · exact .inr h'
    · exact absurd (String.le_antisymm (String.not_lt.1 h') (String.not_lt.1 h)) hab

theorem insert_of_lt {a k : String} (h : a < k) (x z : α) (m : List (String × α)) :
    insert a x ((k, z) :: m) = (a, x) :: (k, z) :: m := if_pos h

theorem insert_self (k : String) (x z : α) (m : List (String × α)) :
    insert k x ((k, z) :: m) = (k, x) :: m := by
  rw [insert, if_neg (String.lt_irrefl k), if_pos rfl]

theorem insert_of_gt {a k : String} (h : k < a) (x z : α) (m : List (String × α)) :
    insert a x ((k, z) :: m) = (k, z) :: insert a x m := by
  have hne : a ≠ k := by
    rintro rfl
    exact String.lt_irrefl a h
  rw [insert, if_neg (String.lt_asymm h), if_neg hne]

/-- The smaller key is put in first or second. -/
theorem insert_comm_of_lt {a b : String} (hab : a < b) (x y : α) (m : List (String × α)) :
    insert a x (insert b y m) = insert b y (insert a x m) := by
  induction m with
  | nil =>
    show insert a x [(b, y)] = insert b y [(a, x)]
    rw [insert_of_lt hab, insert_of_gt hab]
    rfl
  | cons e m ih =>
    obtain ⟨k, z⟩ := e
    by_cases hbk : b < k
    · rw [insert_of_lt hbk, insert_of_lt hab, insert_of_lt (String.lt_trans hab hbk), insert_of_gt hab,
        insert_of_lt hbk]
    by_cases hbeq : b = k
    · subst hbeq
      rw [insert_self, insert_of_lt hab, insert_of_lt hab, insert_of_gt hab, insert_self]
    have hkb := (lt_or_lt_of_ne hbeq).resolve_left hbk
    rw [insert_of_gt hkb]
    by_cases hak : a < k
    · rw [insert_of_lt hak, insert_of_lt hak, insert_of_gt hab, insert_of_gt hkb]
    by_cases haeq : a = k
    · subst haeq
      rw [insert_self, insert_self, insert_of_gt hab]
    have hka := (lt_or_lt_of_ne haeq).resolve_left hak
    rw [insert_of_gt hka, insert_of_gt hka, insert_of_gt hkb, ih]

theorem insert_comm {a b : String} (hab : a ≠ b) (x y : α) (m : List (String × α)) :
    insert a x (insert b y m) = insert b y (insert a x m) := by
  rcases lt_or_lt_of_ne hab with hlt | hlt
  · exact insert_comm_of_lt hlt x y m
  · exact (insert_comm_of_lt hlt y x m).symm

/-- The second value under a key is the one that stays. -/
theorem insert_insert (k : String) (x y : α) (m : List (String × α)) :
    insert k x (insert k y m) = insert k x m := by
  induction m with
  | nil => exact insert_self k x y []
  | cons e m ih =>
    obtain ⟨l, z⟩ := e
    by_cases hkl : k < l
    · rw [insert_of_lt hkl, insert_self, insert_of_lt hkl]
    by_cases heq : k = l
    · subst heq
      rw [insert_self, insert_self, insert_self]
    have hlk := (lt_or_lt_of_ne heq).resolve_left hkl
    rw [insert_of_gt hlk, insert_of_gt hlk, insert_of_gt hlk, ih]

/-! ### Maps put into maps -/

/-- The keys increase. -/
def Sorted (m : List (String × α)) : Prop := m.Pairwise fun a b => a.1 < b.1

theorem sorted_insert {m : List (String × α)} (hm : Sorted m) (k : String) (x : α) :
    Sorted (insert k x m) := by
  induction m with
  | nil => exact List.pairwise_singleton ..
  | cons e m ih =>
    obtain ⟨l, z⟩ := e
    obtain ⟨hfirst, hrest⟩ := List.pairwise_cons.1 hm
    by_cases hkl : k < l
    · rw [insert_of_lt hkl]
      refine List.pairwise_cons.2 ⟨?_, hm⟩
      intro e he
      rcases List.mem_cons.1 he with rfl | he
      · exact hkl
      · exact String.lt_trans hkl (hfirst e he)
    by_cases heq : k = l
    · subst heq
      rw [insert_self]
      exact List.pairwise_cons.2 ⟨hfirst, hrest⟩
    have hlk := (lt_or_lt_of_ne heq).resolve_left hkl
    rw [insert_of_gt hlk]
    refine List.pairwise_cons.2 ⟨?_, ih hrest⟩
    intro e he
    rcases key_of_mem_insert he with hkey | he
    · rwa [hkey]
    · exact hfirst e he

theorem insertAll_cons (k : String) (x : α) (es m : List (String × α)) :
    insertAll ((k, x) :: es) m = insertAll es (insert k x m) := rfl

/-- A key that is not among the others may be put in after them. -/
theorem insertAll_insert_of_ne {k : String} {es : List (String × α)} (hk : ∀ e ∈ es, e.1 ≠ k) (x : α)
    (m : List (String × α)) : insertAll es (insert k x m) = insert k x (insertAll es m) := by
  induction es generalizing m with
  | nil => rfl
  | cons e es ih =>
    obtain ⟨l, y⟩ := e
    obtain ⟨hl, hes⟩ := List.forall_mem_cons.1 hk
    rw [insertAll_cons, insertAll_cons, insert_comm hl, ih hes]

/-- A pair that was put into a map comes last when the map is put into another. -/
theorem insertAll_insert {es : List (String × α)} (hes : Sorted es) (k : String) (x : α)
    (m : List (String × α)) : insertAll (insert k x es) m = insert k x (insertAll es m) := by
  induction es generalizing m with
  | nil => rfl
  | cons e es ih =>
    obtain ⟨l, y⟩ := e
    obtain ⟨hfirst, hrest⟩ := List.pairwise_cons.1 hes
    have hne : k ≤ l → ∀ e ∈ es, e.1 ≠ k := by
      intro hkl e he heq
      have hlt := hfirst e he
      rw [heq] at hlt
      exact String.not_lt.2 hkl hlt
    by_cases hkl : k < l
    · rw [insert_of_lt hkl, insertAll_cons, insertAll_insert_of_ne]
      intro e he
      rcases List.mem_cons.1 he with rfl | he
      · rintro rfl
        exact String.lt_irrefl l hkl
      · exact hne (String.not_lt.1 (String.lt_asymm hkl)) e he
    by_cases heq : k = l
    · subst heq
      rw [insert_self, insertAll_cons, insertAll_cons, ← insertAll_insert_of_ne (hne (String.le_refl k)),
        insert_insert]
    have hlk := (lt_or_lt_of_ne heq).resolve_left hkl
    rw [insert_of_gt hlk, insertAll_cons, insertAll_cons, ih hrest]

end Persona.Keyed
