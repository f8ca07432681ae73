/-! Finite maps as lists of pairs in key order.

The order of texts is that of their characters' code points. -/
namespace Persona.Keyed

/-- Puts a value under a key; a value already there gives way. -/
def insert (key : String) (value : α) : List (String × α) → List (String × α)
  | [] => [(key, value)]
  | (k, v) :: rest =>
    if key < k then (key, value) :: (k, v) :: rest
    else if key = k then (key, value) :: rest
    else (k, v) :: insert key value rest

def get? (key : String) : List (String × α) → Option α
  | [] => none
  | (k, v) :: rest => if k = key then some v else get? key rest

/-- Puts pairs in, one after the other. -/
def insertAll (entries : List (String × α)) (m : List (String × α)) : List (String × α) :=
  entries.foldl (fun m (k, v) => insert k v m) m

def ofList (entries : List (String × α)) : List (String × α) := insertAll entries []

theorem get?_insert_self (key : String) (value : α) (m : List (String × α)) :
    get? key (insert key value m) = some value := by
  induction m with
  | nil => simp [insert, get?]
  | cons e rest ih =>
    obtain ⟨k, v⟩ := e
    unfold insert
    split
    · simp [get?]
    split
    · simp [get?]
    · next hne => simp [get?, Ne.symm hne, ih]

theorem get?_insert_of_ne {key other : String} (h : other ≠ key) (value : α) (m : List (String × α)) :
    get? other (insert key value m) = get? other m := by
  induction m with
  | nil => simp [insert, get?, h.symm]
  | cons e rest ih =>
    obtain ⟨k, v⟩ := e
    unfold insert
    split
    · simp [get?, h.symm]
    split
    · next heq => simp [get?, ← heq, h.symm]
    · simp [get?, ih]

end Persona.Keyed
