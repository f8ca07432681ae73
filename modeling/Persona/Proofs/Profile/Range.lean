import Persona.Profile.Template
import Persona.Proofs.Decimal.Unit
import Persona.Session

/-! Profiles stay in range.

Whatever arguments the operations on profiles get, the profiles that they give have finite
values between zero and one. What is set is checked, and what is calculated is clamped; it is
not NaN because it is calculated from values that are in range and from rates and weights that
have been checked. -/
namespace Persona.Profile

/-- Every trait has a finite value between zero and one. -/
def InRange (p : Profile) : Prop := ∀ t, (p.get t).isFinite = true ∧ 0.0 ≤ p.get t ∧ p.get t ≤ 1.0

variable {p q r : Profile}

theorem inRange_iff : p.InRange ↔ ∀ t, inUnit (p.get t) = true := by
  constructor
  · exact fun h t => Decimal.inUnit_iff.2 (h t).2
  · exact fun h t => ⟨Decimal.isFinite_of_inUnit (h t), Decimal.inUnit_iff.1 (h t)⟩

theorem InRange.inUnit (h : p.InRange) (t : Trait) : inUnit (p.get t) = true := inRange_iff.1 h t

/-! ### Single operations -/

theorem inRange_default : default.InRange := by
  apply inRange_iff.2
  intro t
  rw [get_default]
  decide +kernel

theorem InRange.put (h : p.InRange) {t : Trait} {value : Float} (hvalue : Profile.inUnit value = true) :
    (p.put t value).InRange := by
  apply inRange_iff.2
  intro s
  by_cases hs : s = t
  · subst hs
    rw [get_put_self]
    exact hvalue
  · rw [get_put_of_ne p value hs]
    exact h.inUnit s

theorem InRange.set (h : p.InRange) {t : Trait} {value : Float} (hset : p.set t value = .ok q) : q.InRange := by
  unfold Profile.set at hset
  split at hset
  · next hvalue =>
    cases hset
    exact h.put hvalue
  · cases hset

theorem InRange.setNamed (h : p.InRange) {name : String} {value : Float}
    (hset : p.setNamed name value = .ok q) : q.InRange := by
  unfold Profile.setNamed at hset
  split at hset
  · exact h.set hset
  · cases hset

theorem InRange.setAll (h : p.InRange) {entries : List (String × Float)} (hset : p.setAll entries = .ok q) :
    q.InRange := by
  induction entries generalizing p with
  | nil =>
    cases hset
    exact h
  | cons e rest ih =>
    obtain ⟨name, value⟩ := e
    simp only [Profile.setAll, List.foldlM_cons] at hset
    cases he : p.setNamed name value with
    | error cause =>
      rw [he] at hset
      cases hset
    | ok p' =>
      rw [he] at hset
      exact ih (h.setNamed he) hset

theorem InRange.evolve (h : p.InRange) {t : Trait} {d : Direction} {rate : Float}
    (hevolve : p.evolve t d rate = .ok q) : q.InRange := by
  unfold Profile.evolve at hevolve
  split at hevolve
  · next hrate =>
    have hrate : 0.0 < rate ∧ rate ≤ 1.0 := by simpa using hrate
    have hunit : Profile.inUnit rate = true := Decimal.inUnit_iff.2 ⟨Decimal.le_of_lt hrate.1, hrate.2⟩
    cases hevolve
    exact h.put (Decimal.inUnit_clamp (Decimal.isNaN_add_sign_mul d (h.inUnit t) hunit))
  · cases hevolve

theorem InRange.mix (hp : p.InRange) (hq : q.InRange) {own other : Float} (hmix : p.mix q own other = .ok r) :
    r.InRange := by
  unfold Profile.mix at hmix
  split at hmix
  · next hweights =>
    have hown : Profile.inUnit own = true ∧ Profile.inUnit other = true := by
      simp only [Bool.and_eq_true] at hweights
      exact hweights.1
    cases hmix
    apply inRange_iff.2
    intro t
    have hget : Profile.get ⟨Vector.zipWith (fun a b => Decimal.clamp 0.0 1.0 (own * a + other * b)) p.values q.values⟩ t =
        Decimal.clamp 0.0 1.0 (own * p.get t + other * q.get t) := by simp [Profile.get]
    rw [hget]
    exact Decimal.inUnit_clamp (Decimal.isNaN_weighted hown.1 hown.2 (hp.inUnit t) (hq.inUnit t))
  · cases hmix

theorem InRange.applyBlock_go (h : p.InRange) {seen : List Trait} {entries : List (Trait × Float)}
    (happly : applyBlock.go p seen entries = .ok q) : q.InRange := by
  induction entries generalizing p seen with
  | nil =>
    cases happly
    exact h
  | cons e rest ih =>
    obtain ⟨t, value⟩ := e
    rw [applyBlock.go] at happly
    split at happly
    · cases happly
    · split at happly
      · next hset => exact ih (h.set hset) happly
      · cases happly

theorem InRange.applyBlock (h : p.InRange) {entries : List (Trait × Float)}
    (happly : p.applyBlock entries = .ok q) : q.InRange := h.applyBlock_go happly

theorem InRange.overrides (h : p.InRange) {entries : List (Trait × Float)}
    (hentries : ∀ e ∈ entries, Profile.inUnit e.2 = true) :
    (entries.foldl (fun p (t, value) => p.put t value) p).InRange := by
  induction entries generalizing p with
  | nil => exact h
  | cons e rest ih =>
    obtain ⟨he, hrest⟩ := List.forall_mem_cons.1 hentries
    exact ih (h.put he) hrest

/-- What templates set is in range. -/
theorem inUnit_overrides : ∀ t ∈ Template.all, ∀ e ∈ t.overrides, Profile.inUnit e.2 = true := by
  decide +kernel

theorem inRange_ofTemplate {name : String} (h : ofTemplate name = .ok p) : p.InRange := by
  unfold ofTemplate at h
  split at h
  · next t ht =>
    cases h
    exact inRange_default.overrides (inUnit_overrides t (List.mem_of_find?_eq_some ht))
  · cases h

/-! ### Sequences of operations -/

/-- An operation on profiles that have been made before, by the places where they are kept. A
place that holds none stands for the neutral profile. -/
inductive Operation where
  | default
  | ofTemplate (name : String)
  /-- A profile from values by name. -/
  | ofMap (entries : List (String × Float))
  | set (place : Nat) (t : Trait) (value : Float)
  | setNamed (place : Nat) (name : String) (value : Float)
  | evolve (place : Nat) (t : Trait) (d : Direction) (rate : Float)
  | mix (place other : Nat) (own weight : Float)
  | applyBlock (place : Nat) (entries : List (Trait × Float))

def Operation.result (ps : List Profile) : Operation → Except ProfileError Profile
  | default => .ok .default
  | ofTemplate name => Profile.ofTemplate name
  | ofMap entries => Profile.default.setAll entries
  | set place t value => (ps.getD place .default).set t value
  | setNamed place name value => (ps.getD place .default).setNamed name value
  | evolve place t d rate => (ps.getD place .default).evolve t d rate
  | mix place other own weight => (ps.getD place .default).mix (ps.getD other .default) own weight
  | applyBlock place entries => (ps.getD place .default).applyBlock entries

/-- The profile that an operation gives is kept behind the others. -/
def perform (ps : List Profile) (o : Operation) : Except ProfileError Unit × List Profile :=
  match o.result ps with
  | .ok p => (.ok (), ps ++ [p])
  | .error e => (.error e, ps)

def performAll (ps : List Profile) (os : List Operation) : List Profile := os.foldl (fun ps o => (perform ps o).2) ps

theorem Operation.inRange_result {ps : List Profile} (hps : ∀ p ∈ ps, p.InRange) {o : Operation}
    (h : o.result ps = .ok p) : p.InRange := by
  have hplace : ∀ place, (ps.getD place Profile.default).InRange := by
    intro place
    rw [List.getD_eq_getElem?_getD]
    cases hget : ps[place]? with
    | none => exact inRange_default
    | some p => exact hps p (List.mem_of_getElem? hget)
  cases o with
  | default =>
    cases h
    exact inRange_default
  | ofTemplate name => exact inRange_ofTemplate h
  | ofMap entries => exact inRange_default.setAll h
  | set place t value => exact (hplace place).set h
  | setNamed place name value => exact (hplace place).setNamed h
  | evolve place t d rate => exact (hplace place).evolve h
  | mix place other own weight => exact (hplace place).mix (hplace other) h
  | applyBlock place entries => exact (hplace place).applyBlock h

theorem inRange_perform {ps : List Profile} (hps : ∀ p ∈ ps, p.InRange) (o : Operation) :
    ∀ p ∈ (perform ps o).2, p.InRange := by
  unfold perform
  split
  · next p hp =>
    intro q hq
    rcases List.mem_append.1 hq with hq | hq
    · exact hps q hq
    · obtain rfl := List.mem_singleton.1 hq
      exact Operation.inRange_result hps hp
  · exact hps

theorem inRange_performAll {ps : List Profile} (hps : ∀ p ∈ ps, p.InRange) (os : List Operation) :
    ∀ p ∈ performAll ps os, p.InRange := by
  induction os generalizing ps with
  | nil => exact hps
  | cons o os ih => exact ih (inRange_perform hps o)

theorem prefix_perform (ps : List Profile) (o : Operation) : ps <+: (perform ps o).2 := by
  unfold perform
  split
  · exact List.prefix_append ..
  · exact List.prefix_refl ps

theorem prefix_performAll (ps : List Profile) (os : List Operation) : ps <+: performAll ps os := by
  induction os generalizing ps with
  | nil => exact List.prefix_refl ps
  | cons o os ih => exact (prefix_perform ps o).trans (ih _)

theorem perform_of_error {ps : List Profile} {o : Operation} {e : ProfileError} (h : (perform ps o).1 = .error e) :
    (perform ps o).2 = ps := by
  unfold perform at h ⊢
  split at h
  · cases h
  · rfl

/-- The profile of a session is only replaced by one that is in range, and a refused block
leaves the session as it was. -/
theorem inRange_applyPersonality (entries : List (Trait × Float)) (s : Session) :
    (s.profile.InRange → (Action.applyPersonality entries s).2.profile.InRange) ∧
      ∀ e, (Action.applyPersonality entries s).1 = .error e → (Action.applyPersonality entries s).2 = s := by
  have hrun : Action.applyPersonality entries s = match s.profile.applyBlock entries with
      | .ok profile => (.ok (), { s with profile })
      | .error e => (.error (.personality e), s) := by
    show ((match s.profile.applyBlock entries with
      | .ok profile => modify fun s => { s with profile }
      | .error e => throw (.personality e) : Action Unit)) s = _
    cases s.profile.applyBlock entries <;> rfl
  rw [hrun]
  cases happly : s.profile.applyBlock entries with
  | error e => exact ⟨id, fun _ _ => rfl⟩
  | ok profile => exact ⟨fun h => h.applyBlock happly, fun e he => nomatch he⟩

/-- Profiles stay in range whatever is done with them, and those that have been made stay as
they are. -/
theorem performAll_inRange (os : List Operation) :
    (∀ p ∈ performAll [] os, ∀ t, (p.get t).isFinite = true ∧ 0.0 ≤ p.get t ∧ p.get t ≤ 1.0) ∧
      (∀ before o after, os = before ++ o :: after →
        performAll [] before <+: performAll [] os ∧
          ∀ e, (perform (performAll [] before) o).1 = .error e →
            (perform (performAll [] before) o).2 = performAll [] before) ∧
      ∀ (entries : List (Trait × Float)) (s : Session),
        (s.profile.InRange → (Action.applyPersonality entries s).2.profile.InRange) ∧
          ∀ e, (Action.applyPersonality entries s).1 = .error e → (Action.applyPersonality entries s).2 = s := by
  refine ⟨inRange_performAll (by simp) os, ?_, inRange_applyPersonality⟩
  rintro before o after rfl
  have hafter : performAll [] (before ++ o :: after) = performAll (performAll [] before) (o :: after) :=
    List.foldl_append
  rw [hafter]
  exact ⟨prefix_performAll _ _, fun e he => perform_of_error he⟩

/-- A value that is clamped, a rate that is NaN, and a mixture of both profiles. -/
def clampedHumor : List Operation :=
  [.ofTemplate "analyst", .evolve 0 .humor .decrease 0.5, .evolve 1 .humor .increase (0.0 / 0.0), .mix 0 1 0.25 0.75]

/-- The operation in between fails, and the profiles before it stay. -/
theorem performAll_inRange_clampedHumor :
    (performAll [] clampedHumor).map (·.get .humor) = [0.3, 0.0, 0.075] ∧
      (∀ p ∈ performAll [] clampedHumor, 0.0 ≤ p.get .humor ∧ p.get .humor ≤ 1.0) ∧
        (perform (performAll [] (clampedHumor.take 2)) (.evolve 1 .humor .increase (0.0 / 0.0))).2 =
          performAll [] (clampedHumor.take 2) := by
  obtain ⟨hrange, hkept, -⟩ := performAll_inRange clampedHumor
  obtain ⟨e, he⟩ : ∃ e, (perform (performAll [] (clampedHumor.take 2))
      (.evolve 1 .humor .increase (0.0 / 0.0))).1 = .error e := ⟨_, rfl⟩
  refine ⟨by decide +kernel, fun p hp => (hrange p hp .humor).2, ?_⟩
  exact (hkept (clampedHumor.take 2) _ (clampedHumor.drop 3) rfl).2 e he

end Persona.Profile
