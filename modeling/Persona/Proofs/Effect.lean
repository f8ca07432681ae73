/-! Computations that change a state and may stop with an error.

What a computation does is its value at a state: a result and the state after it. There
are equations by which such values are found, and rules for what a computation keeps:
a property of the state that holds after it, however it ends, if it held before. -/
namespace Persona.Effect

variable {ε σ α β : Type}

theorem bind_apply (a : ExceptT ε (StateM σ) α) (k : α → ExceptT ε (StateM σ) β) (s : σ) :
    (a >>= k) s = match a s with
      | (.ok x, t) => k x t
      | (.error e, t) => (.error e, t) := by
  show (match a s with
    | (r, t) => ExceptT.bindCont k r t) = _
  cases a s with
  | mk r t =>
    cases r with
    | ok x => rfl
    | error e => rfl

theorem bind_ok {a : ExceptT ε (StateM σ) α} {s t : σ} {x : α} (h : a s = (.ok x, t))
    (k : α → ExceptT ε (StateM σ) β) : (a >>= k) s = k x t := by
  rw [bind_apply, h]

theorem bind_error {a : ExceptT ε (StateM σ) α} {s t : σ} {e : ε} (h : a s = (.error e, t))
    (k : α → ExceptT ε (StateM σ) β) : (a >>= k) s = (.error e, t) := by
  rw [bind_apply, h]

@[simp] theorem pure_apply (x : α) (s : σ) :
    (pure x : ExceptT ε (StateM σ) α) s = (.ok x, s) := rfl

@[simp] theorem throw_apply (e : ε) (s : σ) :
    (throw e : ExceptT ε (StateM σ) α) s = (.error e, s) := rfl

@[simp] theorem throw_bind_apply (e : ε) (k : α → ExceptT ε (StateM σ) β) (s : σ) :
    ((throw e : ExceptT ε (StateM σ) α) >>= k) s = (.error e, s) := rfl

@[simp] theorem get_bind_apply (k : σ → ExceptT ε (StateM σ) β) (s : σ) :
    ((get : ExceptT ε (StateM σ) σ) >>= k) s = k s s := rfl

@[simp] theorem modify_apply (g : σ → σ) (s : σ) :
    (modify g : ExceptT ε (StateM σ) PUnit) s = (.ok ⟨⟩, g s) := rfl

@[simp] theorem modify_bind_apply (g : σ → σ) (k : PUnit → ExceptT ε (StateM σ) β) (s : σ) :
    ((modify g : ExceptT ε (StateM σ) PUnit) >>= k) s = k ⟨⟩ (g s) := rfl

/-! ### Invariants -/

variable {I : σ → Prop} {F : ε → Prop} {Q : α → Prop}

/-- The computation keeps `I`; its result, if it has one, is a `Q`, its error an `F`. -/
def Keeps (I : σ → Prop) (F : ε → Prop) (Q : α → Prop) (a : ExceptT ε (StateM σ) α) : Prop :=
  ∀ s, I s → I (a s).2 ∧ (∀ x, (a s).1 = .ok x → Q x) ∧ ∀ e, (a s).1 = .error e → F e

namespace Keeps

theorem pure {x : α} (h : Q x) : Keeps I F Q (pure x) := by
  intro s hs
  refine ⟨hs, fun y hy => ?_, fun e he => ?_⟩
  · cases hy
    exact h
  · cases he

theorem throw {e : ε} (h : F e) : Keeps I F Q (throw e) := by
  intro s hs
  refine ⟨hs, fun y hy => ?_, fun e he => ?_⟩
  · cases hy
  · cases he
    exact h

theorem bind {a : ExceptT ε (StateM σ) α} {k : α → ExceptT ε (StateM σ) β} {Q' : β → Prop}
    (ha : Keeps I F Q a) (hk : ∀ x, Q x → Keeps I F Q' (k x)) : Keeps I F Q' (a >>= k) := by
  intro s hs
  obtain ⟨hI, hQ, hF⟩ := ha s hs
  rw [bind_apply]
  cases h : a s with
  | mk r t =>
    rw [h] at hI hQ hF
    cases r with
    | ok x => exact hk x (hQ x rfl) t hI
    | error e =>
      refine ⟨hI, fun y hy => ?_, fun e' he => ?_⟩
      · cases hy
      · cases he
        exact hF e rfl

theorem get {k : σ → ExceptT ε (StateM σ) β} {Q' : β → Prop}
    (h : ∀ s, I s → Keeps I F Q' (k s)) : Keeps I F Q' (get >>= k) := fun s hs => h s hs s hs

theorem modify {g : σ → σ} (h : ∀ s, I s → I (g s)) :
    Keeps I F (fun _ => True) (modify g : ExceptT ε (StateM σ) PUnit) :=
  fun s hs => ⟨h s hs, fun _ _ => trivial, fun e he => by cases he⟩

theorem imp {a : ExceptT ε (StateM σ) α} {F' : ε → Prop} {Q' : α → Prop} (h : Keeps I F Q a)
    (hF : ∀ e, F e → F' e) (hQ : ∀ x, Q x → Q' x) : Keeps I F' Q' a := by
  intro s hs
  obtain ⟨hI, hok, herror⟩ := h s hs
  exact ⟨hI, fun x hx => hQ x (hok x hx), fun e he => hF e (herror e he)⟩

end Keeps

/-! ### Results -/

/-- From a state with `I`, a result comes together with a state that fits it, and an error is
an `F`. -/
def Leads (I : σ → Prop) (F : ε → Prop) (Q : α → σ → Prop) (a : ExceptT ε (StateM σ) α) : Prop :=
  ∀ s, I s → (∀ x t, a s = (.ok x, t) → Q x t) ∧ ∀ e t, a s = (.error e, t) → F e

namespace Leads

variable {Q : α → σ → Prop} {Q' : β → σ → Prop} {a : ExceptT ε (StateM σ) α}

theorem pure {x : α} (h : ∀ s, I s → Q x s) : Leads I F Q (pure x : ExceptT ε (StateM σ) α) := by
  intro s hs
  refine ⟨fun y t hy => ?_, fun e t he => ?_⟩
  · cases hy
    exact h s hs
  · cases he

theorem throw {e : ε} (h : F e) : Leads I F Q (throw e : ExceptT ε (StateM σ) α) := by
  intro s _
  refine ⟨fun y t hy => ?_, fun e' t he => ?_⟩
  · cases hy
  · cases he
    exact h

theorem bind {k : α → ExceptT ε (StateM σ) β} (ha : Leads I F Q a) (hk : ∀ x, Leads (Q x) F Q' (k x)) :
    Leads I F Q' (a >>= k) := by
  intro s hs
  obtain ⟨hok, herror⟩ := ha s hs
  rw [bind_apply]
  cases hr : a s with
  | mk r u =>
    cases r with
    | ok x => exact hk x u (hok x u hr)
    | error e =>
      refine ⟨fun y t hy => ?_, fun e' t he => ?_⟩
      · cases hy
      · cases he
        exact herror e u hr

theorem get {k : σ → ExceptT ε (StateM σ) β} (h : ∀ s, I s → Leads (· = s) F Q' (k s)) :
    Leads I F Q' (get >>= k) := fun s hs => h s hs s rfl

theorem modify {g : σ → σ} {Q : PUnit → σ → Prop} (h : ∀ s, I s → Q ⟨⟩ (g s)) :
    Leads I F Q (modify g : ExceptT ε (StateM σ) PUnit) := by
  intro s hs
  refine ⟨fun y t hy => ?_, fun e t he => ?_⟩
  · cases hy
    exact h s hs
  · cases he

theorem imp {R : α → σ → Prop} (h : Leads I F Q a) (hQ : ∀ x t, Q x t → R x t) : Leads I F R a := by
  intro s hs
  obtain ⟨hok, herror⟩ := h s hs
  exact ⟨fun x t hx => hQ x t (hok x t hx), herror⟩

/-- What is known before the computation need not depend on the state. -/
theorem given {p : Prop} (h : p → Leads I F Q a) : Leads (fun s => p ∧ I s) F Q a :=
  fun s hs => h hs.1 s hs.2

theorem of_keeps {Q : α → Prop} (h : Keeps I F Q a) : Leads I F (fun x t => Q x ∧ I t) a := by
  intro s hs
  obtain ⟨hI, hok, herror⟩ := h s hs
  refine ⟨fun x t hx => ?_, fun e t he => ?_⟩
  · rw [hx] at hI hok
    exact ⟨hok x rfl, hI⟩
  · rw [he] at herror
    exact herror e rfl

end Leads

end Persona.Effect
