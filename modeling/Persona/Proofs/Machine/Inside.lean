import Persona.Proofs.Machine.Steps

/-! Runs through a stretch of code.

A machine that comes to a code may be followed up to where it stands behind the code, in the calls in
which it came; the calls that the code makes belong to that part of the run. What is known of the parts
of a code is put together: where one part has led, the next one goes on. -/
namespace Persona.Machine

variable {h : Host} {c : Code} {mid stop k top : Nat} {m a b d : Machine} {N T : Prop} {P Q : Machine → Prop}

/-- The machine stands at `stop` in the calls of `m`. -/
def Behind (stop : Nat) (m a : Machine) : Prop := a.pointer = stop ∧ a.frames = m.frames

/-- The machines of the run from `m` on, up to the first one that stands at `stop` in the calls of `m`. -/
inductive Inside (h : Host) (c : Code) (stop : Nat) (m : Machine) : Machine → Prop
  | enters : Inside h c stop m m
  | goesOn {a b : Machine} : Inside h c stop m a → ¬ Behind stop m a → step h c a = (.ok .running, b) →
    Inside h c stop m b

/-- A machine that is not behind the code does not stop for want of room on the stack. -/
def HasRoom (h : Host) (c : Code) (stop : Nat) (m a : Machine) : Prop :=
  ¬ Behind stop m a → (step h c a).1 ≠ .error (.limit (.stackSize h.limits.maxStackSize))

/-- The run from `m` on stops on the way to `stop` for want of room on the stack. -/
def WantsRoom (h : Host) (c : Code) (stop : Nat) (m : Machine) : Prop :=
  ∃ a, Inside h c stop m a ∧ ¬ HasRoom h c stop m a

/-- From `m` up to `stop` a run needs no more than `k` slots of the operand stack: it never has more
operands above those of `m`, and with so many slots it does not want for room. -/
structure Needs (h : Host) (c : Code) (stop k : Nat) (m : Machine) : Prop where
  height_le : ∀ a, Inside h c stop m a → a.stack.height ≤ m.stack.height + k
  room : m.stack.height + k ≤ h.limits.maxStackSize → ∀ a, Inside h c stop m a → HasRoom h c stop m a

/-! ### Composition -/

namespace Inside

theorem steps (ha : Inside h c stop m a) : ∃ n, Steps h c n m a := by
  induction ha with
  | enters => exact ⟨0, .none m⟩
  | goesOn _ _ hstep ih =>
    obtain ⟨n, hsteps⟩ := ih
    exact ⟨n + 1, hsteps.trans (.one hstep)⟩

theorem trans (hd : Inside h c stop m d) (hframes : d.frames = m.frames) (ha : Inside h c stop d a) :
    Inside h c stop m a := by
  induction ha with
  | enters => exact hd
  | goesOn _ hbehind hstep ih => exact .goesOn ih (fun h => hbehind ⟨h.1, h.2.trans hframes.symm⟩) hstep

/-- Before a run comes to `stop` it is on the way to `mid`, or it has been there. -/
theorem split (ha : Inside h c stop m a) :
    Inside h c mid m a ∨ ∃ d, Inside h c mid m d ∧ Behind mid m d ∧ Inside h c stop d a := by
  induction ha with
  | enters => exact .inl .enters
  | @goesOn a b _ hbehind hstep ih =>
    rcases ih with hfirst | ⟨d, hd, hmid, hrest⟩
    · by_cases hmid : Behind mid m a
      · refine .inr ⟨a, hfirst, hmid, .goesOn .enters (fun hstop => hbehind ⟨hstop.1, hmid.2⟩) hstep⟩
      · exact .inl (.goesOn hfirst hmid hstep)
    · exact .inr ⟨d, hd, hmid, .goesOn hrest (fun hstop => hbehind ⟨hstop.1, hstop.2.trans hmid.2⟩) hstep⟩

/-- A run that is not past `mid` before it comes there is not past what lies behind. -/
theorem lift (hle : mid ≤ stop) (hnear : ∀ a, Inside h c mid m a → a.frames = m.frames → a.pointer ≤ mid)
    (ha : Inside h c mid m a) : Inside h c stop m a := by
  induction ha with
  | enters => exact .enters
  | goesOn hfirst hbehind hstep ih =>
    refine .goesOn ih (fun hstop => hbehind ⟨?_, hstop.2⟩) hstep
    have := hnear _ hfirst hstop.2
    have := hstop.1
    omega

end Inside

theorem WantsRoom.trans (hwants : WantsRoom h c stop d) (hd : Inside h c stop m d) (hframes : d.frames = m.frames) :
    WantsRoom h c stop m := by
  obtain ⟨a, ha, hfull⟩ := hwants
  refine ⟨a, hd.trans hframes ha, fun hroom => hfull fun hnot => hroom fun hstop => hnot ?_⟩
  exact ⟨hstop.1, hstop.2.trans hframes.symm⟩

theorem WantsRoom.lift (hwants : WantsRoom h c mid m) (hle : mid ≤ stop)
    (hnear : ∀ a, Inside h c mid m a → a.frames = m.frames → a.pointer ≤ mid) : WantsRoom h c stop m := by
  obtain ⟨a, ha, hfull⟩ := hwants
  refine ⟨a, ha.lift hle hnear, fun hroom => hfull fun hnot => hroom fun hstop => hnot ?_⟩
  have := hnear a ha hstop.2
  have := hstop.1
  exact ⟨by omega, hstop.2⟩

/-- A run goes through a code that ends at `stop`, with at most `top` operands on the stack if `N` holds. What
it has led to is a `Q`, and if `T` holds it does lead there, unless the stack has no room for `top` operands. -/
structure Carries (h : Host) (c : Code) (N T : Prop) (top stop : Nat) (m : Machine) (Q : Machine → Prop) : Prop where
  near : ∀ a, Inside h c stop m a → a.frames = m.frames → a.pointer ≤ stop
  low : N → ∀ a, Inside h c stop m a → a.stack.height ≤ top ∧ (top ≤ h.limits.maxStackSize → HasRoom h c stop m a)
  leaves : ∀ b, Inside h c stop m b → Behind stop m b → Q b
  ends : T → (∃ b, Inside h c stop m b ∧ Behind stop m b) ∨ h.limits.maxStackSize < top ∧ WantsRoom h c stop m

namespace Carries

theorem imp (hm : Carries h c N T top stop m P) (hpq : ∀ b, Inside h c stop m b → Behind stop m b → P b → Q b) :
    Carries h c N T top stop m Q :=
  ⟨hm.near, hm.low, fun b hb hstop => hpq b hb hstop (hm.leaves b hb hstop), hm.ends⟩

theorem needs (hm : Carries h c True T (m.stack.height + k) stop m Q) : Needs h c stop k m :=
  ⟨fun a ha => (hm.low trivial a ha).1, fun hmax a ha => (hm.low trivial a ha).2 hmax⟩

/-- A code of no instructions. -/
theorem here (hpointer : m.pointer = stop) (htop : m.stack.height ≤ top) (hm : Q m) :
    Carries h c N T top stop m Q := by
  have hbehind : Behind stop m m := ⟨hpointer, rfl⟩
  have honly : ∀ a, Inside h c stop m a → a = m := by
    intro a ha
    induction ha with
    | enters => rfl
    | goesOn _ hnot _ ih =>
      subst ih
      exact absurd hbehind hnot
  refine ⟨fun a ha _ => ?_, fun _ a ha => ?_, fun b hb _ => ?_, fun _ => .inl ⟨m, .enters, hbehind⟩⟩
  · rw [honly a ha, hpointer]
  · rw [honly a ha]
    exact ⟨htop, fun _ hnot => absurd hbehind hnot⟩
  · rwa [honly b hb]

/-- An instruction that pushes a value on what it leaves of the stack. -/
theorem push {v : Value} {t : Stack}
    (hstep : step h c m = deliver h (pure v) false { m with pointer := stop, stack := t })
    (hahead : m.pointer < stop) (htop : m.stack.height ≤ top) (hroom : t.height < top)
    (hm : Q { m with pointer := stop, stack := t.push v }) : Carries h c N T top stop m Q := by
  have hrun := deliver_ok (a := pure v) (m := { m with pointer := stop, stack := t }) rfl (h := h)
  rw [← hstep] at hrun
  have hbehind : Behind stop m { m with pointer := stop, stack := t.push v } := ⟨rfl, rfl⟩
  have honly : ∀ a, Inside h c stop m a → a = m ∨ a = { m with pointer := stop, stack := t.push v } := by
    intro a ha
    induction ha with
    | enters => exact .inl rfl
    | goesOn _ hnot hgoes ih =>
      rcases ih with rfl | rfl
      · by_cases hfull : h.limits.maxStackSize ≤ t.height
        · rw [if_pos hfull] at hrun
          cases hgoes.symm.trans hrun
        · rw [if_neg hfull] at hrun
          cases hgoes.symm.trans hrun
          exact .inr rfl
      · exact absurd hbehind hnot
  have hnot : ¬ Behind stop m m := fun h => absurd h.1 (Nat.ne_of_lt hahead)
  have hgoes : t.height < h.limits.maxStackSize →
      step h c m = (.ok .running, { m with pointer := stop, stack := t.push v }) := by
    intro hlt
    rw [hrun, if_neg (Nat.not_le.2 hlt)]
  refine ⟨fun a ha _ => ?_, fun _ a ha => ?_, fun b hb hstop => ?_, fun _ => ?_⟩
  · rcases honly a ha with rfl | rfl
    · exact Nat.le_of_lt hahead
    · exact Nat.le_refl stop
  · rcases honly a ha with rfl | rfl
    · refine ⟨htop, fun hmax _ => ?_⟩
      rw [hgoes (Nat.lt_of_lt_of_le hroom hmax)]
      exact fun h => nomatch h
    · exact ⟨hroom, fun _ hnot => absurd hbehind hnot⟩
  · rcases honly b hb with rfl | rfl
    · exact absurd hstop hnot
    · exact hm
  · by_cases hfull : h.limits.maxStackSize ≤ t.height
    · rw [if_pos hfull] at hrun
      refine .inr ⟨Nat.lt_of_le_of_lt hfull hroom, m, .enters, fun hasRoom => hasRoom hnot ?_⟩
      rw [hrun]
    · exact .inl ⟨_, .goesOn .enters hnot (hgoes (Nat.not_le.1 hfull)), hbehind⟩

/-- One code behind another. -/
theorem andThen (hfirst : Carries h c N T top mid m P) (hle : mid ≤ stop)
    (hrest : ∀ d, Inside h c stop m d → Behind mid m d → P d → Carries h c N T top stop d Q) :
    Carries h c N T top stop m Q := by
  have hgoesOn : ∀ d, Inside h c mid m d → Behind mid m d → Carries h c N T top stop d Q := fun d hd hmid =>
    hrest d (hd.lift hle hfirst.near) hmid (hfirst.leaves d hd hmid)
  refine ⟨fun a ha hframes => ?_, fun hN a ha => ?_, fun b hb hstop => ?_, fun hT => ?_⟩
  · rcases ha.split with hbefore | ⟨d, hd, hmid, hafter⟩
    · exact Nat.le_trans (hfirst.near a hbefore hframes) hle
    · exact (hgoesOn d hd hmid).near a hafter (hframes.trans hmid.2.symm)
  · rcases ha.split with hbefore | ⟨d, hd, hmid, hafter⟩
    · obtain ⟨htop, hroom⟩ := hfirst.low hN a hbefore
      refine ⟨htop, fun hmax hnot => ?_⟩
      by_cases hmid : Behind mid m a
      · exact ((hgoesOn a hbefore hmid).low hN a .enters).2 hmax fun hstop => hnot ⟨hstop.1, hmid.2⟩
      · exact hroom hmax hmid
    · obtain ⟨htop, hroom⟩ := (hgoesOn d hd hmid).low hN a hafter
      exact ⟨htop, fun hmax hnot => hroom hmax fun hstop => hnot ⟨hstop.1, hstop.2.trans hmid.2⟩⟩
  · rcases hb.split with hbefore | ⟨d, hd, hmid, hafter⟩
    · have hmid : Behind mid m b := by
        have := hfirst.near b hbefore hstop.2
        have := hstop.1
        exact ⟨by omega, hstop.2⟩
      exact (hgoesOn b hbefore hmid).leaves b .enters ⟨hstop.1, rfl⟩
    · exact (hgoesOn d hd hmid).leaves b hafter ⟨hstop.1, hstop.2.trans hmid.2.symm⟩
  · rcases hfirst.ends hT with ⟨d, hd, hmid⟩ | ⟨htop, hwants⟩
    · have hthere := hd.lift hle hfirst.near
      rcases (hgoesOn d hd hmid).ends hT with ⟨b, hb, hstop⟩ | ⟨htop, hwants⟩
      · exact .inl ⟨b, hthere.trans hmid.2 hb, hstop.1, hstop.2.trans hmid.2⟩
      · exact .inr ⟨htop, hwants.trans hthere hmid.2⟩
    · exact .inr ⟨htop, hwants.lift hle hfirst.near⟩

end Carries

end Persona.Machine
