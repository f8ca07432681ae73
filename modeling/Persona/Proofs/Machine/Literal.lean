import Persona.Proofs.Machine.OneValue
import Persona.Proofs.Simulation.Literal

/-! Literals on the operand stack.

The code of a literal makes a segment whenever enough entries are on the stack and joins it to the value of
the segments before it. So in front of an entry there are at most that value and the operands of all entries
of a segment but one, however long the literal is; what a value needs comes on top of them. -/
namespace Persona.Machine

open Compilation (segmentLength segments size size_append size_cons size_nil)
open Simulation (Assembly Makes Placed arrays build_arrays build_arrays_ok extend_array_empty joined joined_insert
  joined_push makes_arrays makes_maps mapOf_append mapOf_ok maps segmentCode segments_full segments_more segments_nil)

/-! ### Runs of literals -/

/-- Where the codes of the values of a literal begin and end. In the code of an entry, `keys` instructions
are in front of the value. -/
def spans (make : Nat → Instruction) (keys : Nat) :
    (first : Bool) → (done off : Nat) → List Compilation.Code → List (Nat × Nat)
  | _, _, _, [] => []
  | first, done, off, code :: codes =>
    if done = segmentLength then
      let entry := off + size (.instr (make done) :: if first then [] else [.instr .extend])
      (entry + size (code.take keys), entry + size code) :: spans make keys false 1 (entry + size code) codes
    else (off + size (code.take keys), off + size code) :: spans make keys first (done + 1) (off + size code) codes

/-- The code of the expression is where the place says. -/
def Occupies (c : Code) (pool : Pool) (e : Expr) (span : Nat × Nat) : Prop :=
  ∃ value, Compilation.expr pool e = .ok value ∧ Placed c 0 span.1 value ∧ span.2 = span.1 + size value

/-- In the run from `m` to `stop`, a machine where the code of a value begins. -/
structure Begins (h : Host) (c : Code) (stop : Nat) (m : Machine) (span : Nat × Nat) (a : Machine) : Prop where
  inside : Inside h c stop m a
  pointer : a.pointer = span.1
  calls : a.frames = m.frames

/-- In the run from `m` to `stop`, the code of a value has left `v` on the stack that it found. -/
def Left (h : Host) (c : Code) (stop : Nat) (m : Machine) (span : Nat × Nat) (v : Value) : Prop :=
  ∃ a b, Begins h c stop m span a ∧ Inside h c span.2 a b ∧ Behind span.2 a b ∧ b.stack = a.stack.push v

/-- In the run from `m` to `stop`, the codes of the values need at most `k` operand slots each. -/
def ValuesNeed (h : Host) (c : Code) (stop : Nat) (m : Machine) (places : List (Nat × Nat)) (k : Nat) : Prop :=
  ∀ span ∈ places, ∀ a, Begins h c stop m span a → Needs h c span.2 k a

/-- In the run from `m` to `stop`, the codes of the values get to their ends when they begin. -/
def ValuesEnd (h : Host) (c : Code) (stop : Nat) (m : Machine) (places : List (Nat × Nat)) : Prop :=
  ∀ span ∈ places, ∀ a, Begins h c stop m span a → ∃ b, Inside h c span.2 a b ∧ Behind span.2 a b

/-- The run from `m` to `stop` builds a literal of the values between these places. Besides what its values
need it needs `slots` operand slots, what it leaves is the `value` of those that the codes have left, and if
they get to their ends it does leave that, unless there is no room for the segments. -/
structure Builds (h : Host) (c : Code) (stop slots : Nat) (places : List (Nat × Nat)) (value : List Value → Value)
    (m : Machine) : Prop where
  needs : ∀ k, 1 ≤ k → ValuesNeed h c stop m places k → Needs h c stop (slots + k) m
  leaves : ∀ b, Inside h c stop m b → Behind stop m b →
    ∃ vs, List.Forall₂ (Left h c stop m) places vs ∧ b.stack = m.stack.push (value vs)
  ends : ValuesEnd h c stop m places → (∃ b, Inside h c stop m b ∧ Behind stop m b) ∨
    h.limits.maxStackSize ≤ m.stack.height + slots ∧ WantsRoom h c stop m

/-! ### Segments -/

section
variable {γ : Type} {K : Assembly γ} {h : Host} {c : Code} {p : Bytecode} {t : Chart} {pool : Pool} {N T : Prop}
  {st : Stack} {head? : Option Value} {ws : List Value} {done rest k top stop : Nat} {acc : γ} {m₀ m : Machine}
  {Q : Machine → Prop}

/-- On the stack `st` are the value of complete segments and the operands `ws` of `done` entries, which make
the value of `acc` together; `rest` entries are to come. -/
structure Holding (limits : Limits) (K : Assembly γ) (st : Stack) (head? : Option Value) (ws : List Value)
    (done rest : Nat) (acc : γ) (stack : Stack) : Prop where
  length : ws.length = K.width * done
  values : stack.values = ws.reverse ++ (head?.toList ++ st.values)
  room : K.room acc rest
  made : ∃ segment, K.build ws = .ok segment ∧ joined limits head? segment = .ok (K.value acc)

theorem Holding.height_le {limits : Limits} {stack : Stack} (hstack : Holding limits K st head? ws done rest acc stack) :
    stack.height ≤ st.height + 1 + K.width * done := by
  have hhead : head?.toList.length ≤ 1 := by cases head? <;> simp
  rw [stack.height_eq, hstack.values, List.length_append, List.length_append, List.length_reverse, hstack.length,
    st.height_eq]
  omega

/-- Segments are made as they are built, and an empty one adds nothing. -/
structure IsSegmented (h : Host) (c : Code) (K : Assembly γ) : Prop where
  make : Makes h c K
  start : ∀ {acc : γ} {rest : Nat}, K.room acc rest →
    ∃ segment, K.build [] = .ok segment ∧ Value.extend h.limits (K.value acc) segment = .ok (K.value acc)

theorem IsSegmented.holding (hK : IsSegmented h c K) (hroom : K.room acc rest) :
    Holding h.limits K st (some (K.value acc)) [] 0 rest acc (st.push (K.value acc)) :=
  ⟨rfl, rfl, hroom, hK.start hroom⟩

/-- A segment is made and joined to those before it. -/
theorem carries_segment (hK : IsSegmented h c K) (hstack : Holding h.limits K st head? ws done rest acc m.stack)
    (hplaced : Placed c 0 m.pointer (segmentCode K head?.isNone done)) (htop : m.stack.height ≤ top)
    (hroom : st.height + 1 < top) : Carries h c N T top (m.pointer + size (segmentCode K head?.isNone done)) m
      fun b => b.stack = st.push (K.value acc) := by
  obtain ⟨segment, hbuild, hjoined⟩ := hstack.made
  have hmakeSize := (K.make done).size_pos
  cases head? with
  | none =>
    cases hjoined
    have hmake := hK.make (t := st) hbuild hstack.length hplaced.fetch hstack.values
    exact .push hmake (Nat.lt_add_of_pos_right hmakeSize) htop (by omega) rfl
  | some head =>
    have hmake := hK.make (t := st.push head) hbuild hstack.length hplaced.fetch hstack.values
    have hmade : Carries h c N T top (m.pointer + (K.make done).size) m
        fun d => d = { m with pointer := m.pointer + (K.make done).size, stack := (st.push head).push segment } :=
      .push hmake (by omega) htop hroom rfl
    have hsize : size (segmentCode K (some head).isNone done) = (K.make done).size + Instruction.extend.size := rfl
    rw [hsize, ← Nat.add_assoc]
    refine hmade.andThen (Nat.le_add_right ..) fun d _ _ hd => ?_
    subst hd
    have hextend := step_extend (h := h) (t := st)
      (m := { m with pointer := m.pointer + (K.make done).size, stack := (st.push head).push segment })
      hplaced.tail.fetch rfl
    rw [show Value.extend _ head segment = _ from hjoined] at hextend
    have hheight : ((st.push head).push segment).height ≤ top := hroom
    exact .push hextend (Nat.lt_add_of_pos_right Instruction.extend.size_pos) hheight (by omega) rfl

/-! ### Entries -/

/-- The code of an entry pushes what is in front of the value, and with the value there is one entry more. -/
def Adds (h : Host) (p : Bytecode) (t : Chart) (pool : Pool) (K : Assembly γ) (put : γ → Value → γ)
    (code : Compilation.Code) : Prop :=
  ∃ front value e, code = front ++ value ∧ front.length + 1 = K.width ∧ Compilation.expr pool e = .ok value ∧
    ∀ ⦃N T : Prop⦄ ⦃top : Nat⦄ ⦃st : Stack⦄ ⦃head? : Option Value⦄ ⦃ws : List Value⦄ ⦃done rest : Nat⦄ ⦃acc : γ⦄
      ⦃m : Machine⦄, OnChart t m → Holding h.limits K st head? ws done (rest + 1) acc m.stack →
      Placed (.ofBytecode p) 0 m.pointer front → m.stack.height + front.length ≤ top →
      Carries h (.ofBytecode p) N T top (m.pointer + size front) m fun b =>
        b.stack.height = m.stack.height + front.length ∧
          ∃ pushed, ∀ w, Holding h.limits K st head? (ws ++ (pushed ++ [w])) (done + 1) rest (put acc w) (b.stack.push w)

/-- The run goes through an entry and goes on with one entry more. -/
theorem carries_entry {put : γ → Value → γ} {code : Compilation.Code} (hsound : t.Sound (.ofBytecode p))
    (hm₀ : OnChart t m₀) (hm : Inside h (.ofBytecode p) stop m₀ m) (hcalls : m.frames = m₀.frames)
    (hcode : Adds h p t pool K put code)
    (hstack : Holding h.limits K st head? ws done (rest + 1) acc m.stack)
    (hplaced : Placed (.ofBytecode p) 0 m.pointer code)
    (hstop : m.pointer + size code ≤ stop) (htop : m.stack.height + (K.width - 1) + k ≤ top) {span : Nat × Nat}
    (hspan : span = (m.pointer + size (code.take (K.width - 1)), m.pointer + size code))
    (hneeds : N → ∀ a, Begins h (.ofBytecode p) stop m₀ span a → Needs h (.ofBytecode p) span.2 k a)
    (hends : T → ∀ a, Begins h (.ofBytecode p) stop m₀ span a →
      ∃ b, Inside h (.ofBytecode p) span.2 a b ∧ Behind span.2 a b)
    (hrest : ∀ d w new, Inside h (.ofBytecode p) stop m d → Behind (m.pointer + size code) m d →
      Left h (.ofBytecode p) stop m₀ span w →
      Holding h.limits K st head? (ws ++ new) (done + 1) rest (put acc w) d.stack →
      Carries h (.ofBytecode p) N T top stop d Q) :
    Carries h (.ofBytecode p) N T top stop m Q := by
  obtain ⟨front, value, e, rfl, hwidth, he, hfront⟩ := hcode
  have hkeys : K.width - 1 = front.length := by omega
  rw [hkeys, List.take_left] at hspan
  rw [hkeys] at htop
  rw [size_append, ← Nat.add_assoc] at hspan hstop hrest
  subst hspan
  refine (hfront (hm.onChart hsound hm₀) hstack hplaced.left (by omega)).andThen (by omega) fun a ha hafront hastack => ?_
  obtain ⟨haheight, pushed, hadds⟩ := hastack
  have hbegins : Begins h (.ofBytecode p) stop m₀ (m.pointer + size front, m.pointer + size front + size value) a :=
    ⟨hm.trans hcalls ha, hafront.1, hafront.2.trans hcalls⟩
  have haplaced : Placed (.ofBytecode p) 0 a.pointer value := by
    rw [hafront.1]
    exact hplaced.right
  have hvalue : Carries h _ N T top _ a _ := carries_expr hsound (hbegins.inside.onChart hsound hm₀) he haplaced
    (fun hN => by rw [hafront.1]; exact hneeds hN a hbegins) (by omega)
    (fun hT => by rw [hafront.1]; exact hends hT a hbegins)
  rw [hafront.1] at hvalue
  have hleft := hvalue.imp fun b hb hbehind hpushed => (⟨hb, hbehind, hpushed⟩ : Inside h _ _ a b ∧ Behind _ a b ∧ _)
  refine hleft.andThen hstop fun d hd hbehind hdleft => ?_
  obtain ⟨hinside, -, w, hw⟩ := hdleft
  refine hrest d w (pushed ++ [w]) (ha.trans hafront.2 hd) ⟨hbehind.1, hbehind.2.trans hafront.2⟩
    ⟨a, d, hbegins, hinside, hbehind, hw⟩ ?_
  rw [hw]
  exact hadds w

/-- The run from `m₀` has come to `m`, where these codes are those of the entries to come. -/
structure Rest (h : Host) (c : Code) (K : Assembly γ) (st : Stack) (stop : Nat) (m₀ : Machine) (head? : Option Value)
    (ws : List Value) (done : Nat) (acc : γ) (codes : List Compilation.Code) (places : List (Nat × Nat)) (m : Machine) :
    Prop where
  inside : Inside h c stop m₀ m
  calls : m.frames = m₀.frames
  holding : Holding h.limits K st head? ws done codes.length acc m.stack
  placed : Placed c 0 m.pointer (segments K.make head?.isNone done codes)
  end_eq : m.pointer + size (segments K.make head?.isNone done codes) = stop
  places_eq : places = spans K.make (K.width - 1) head?.isNone done m.pointer codes

/-- All values of the places have been left, and put together. -/
def Built (h : Host) (c : Code) (K : Assembly γ) (st : Stack) (stop : Nat) (m₀ : Machine) (acc : γ)
    (puts : List (γ → Value → γ)) (places : List (Nat × Nat)) (b : Machine) : Prop :=
  ∃ vs, List.Forall₂ (Left h c stop m₀) places vs ∧
    b.stack = st.push (K.value ((puts.zip vs).foldl (fun acc x => x.1 acc x.2) acc))

variable {puts : List (γ → Value → γ)} {codes : List Compilation.Code} {places : List (Nat × Nat)}

/-- One more entry of a segment that is not full. -/
theorem carries_more (hsound : t.Sound (.ofBytecode p)) (hm₀ : OnChart t m₀) (hwidth : 1 ≤ K.width)
    (htop : st.height + K.width * segmentLength + k ≤ top) {put : γ → Value → γ} {code : Compilation.Code}
    (hcode : Adds h p t pool K put code)
    (hrest : Rest h (.ofBytecode p) K st stop m₀ head? ws done acc (code :: codes) places m) (hlt : done < segmentLength)
    (hneeds : N → ValuesNeed h (.ofBytecode p) stop m₀ places k) (hends : T → ValuesEnd h (.ofBytecode p) stop m₀ places)
    (hgoes : ∀ d ws' acc' places', Rest h (.ofBytecode p) K st stop m₀ head? ws' (done + 1) acc' codes places' d →
      (N → ValuesNeed h (.ofBytecode p) stop m₀ places' k) → (T → ValuesEnd h (.ofBytecode p) stop m₀ places') →
      Carries h (.ofBytecode p) N T top stop d (Built h (.ofBytecode p) K st stop m₀ acc' puts places')) :
    Carries h (.ofBytecode p) N T top stop m (Built h (.ofBytecode p) K st stop m₀ acc (put :: puts) places) := by
  obtain ⟨hinside, hcalls, hholding, hplaced, hend, hplaces⟩ := hrest
  have hmore : done ≠ segmentLength := Nat.ne_of_lt hlt
  rw [segments_more hmore] at hplaced hend
  rw [size_append, ← Nat.add_assoc] at hend
  rw [spans, if_neg hmore] at hplaces
  have hheight := hholding.height_le
  have hwidths : K.width * (done + 1) ≤ K.width * segmentLength := Nat.mul_le_mul_left _ hlt
  rw [Nat.mul_succ] at hwidths
  subst hplaces
  refine carries_entry hsound hm₀ hinside hcalls hcode hholding hplaced.left (by omega) (by omega) rfl
    (fun hN => hneeds hN _ (List.mem_cons_self ..)) (fun hT => hends hT _ (List.mem_cons_self ..))
    fun d w new hd hbehind hleft hstack => ?_
  obtain ⟨hpointer, hframes⟩ := hbehind
  have hnext : Rest h (.ofBytecode p) K st stop m₀ head? (ws ++ new) (done + 1) (put acc w) codes
      (spans K.make (K.width - 1) head?.isNone (done + 1) d.pointer codes) d :=
    ⟨hinside.trans hcalls hd, hframes.trans hcalls, hstack, hpointer ▸ hplaced.right, hpointer ▸ hend, rfl⟩
  refine (hgoes d _ _ _ hnext (fun hN span hspan => ?_) (fun hT span hspan => ?_)).imp fun b _ _ hb => ?_
  · rw [hpointer] at hspan
    exact hneeds hN span (List.mem_cons_of_mem _ hspan)
  · rw [hpointer] at hspan
    exact hends hT span (List.mem_cons_of_mem _ hspan)
  · obtain ⟨vs, hvs, hb⟩ := hb
    rw [hpointer] at hvs
    exact ⟨w :: vs, .cons hleft hvs, hb⟩

/-- The entries of a literal and its segments, from any point on. -/
theorem carries_segments (hsound : t.Sound (.ofBytecode p)) (hK : IsSegmented h (.ofBytecode p) K)
    (hm₀ : OnChart t m₀) (hk : 1 ≤ k) (hwidth : 1 ≤ K.width) (htop : st.height + K.width * segmentLength + k ≤ top)
    (hcodes : List.Forall₂ (Adds h p t pool K) puts codes) (hdone : done = 0 → head? = none) (hle : done ≤ segmentLength)
    (hrest : Rest h (.ofBytecode p) K st stop m₀ head? ws done acc codes places m)
    (hneeds : N → ValuesNeed h (.ofBytecode p) stop m₀ places k)
    (hends : T → ValuesEnd h (.ofBytecode p) stop m₀ places) :
    Carries h (.ofBytecode p) N T top stop m (Built h (.ofBytecode p) K st stop m₀ acc puts places) := by
  have hlow : ∀ done ≤ segmentLength, st.height + 1 + K.width * done ≤ top ∧ st.height + 1 < top := by
    intro done hle
    have hwidths : K.width * done ≤ K.width * segmentLength := Nat.mul_le_mul_left _ hle
    have hone : 1 * segmentLength ≤ K.width * segmentLength := Nat.mul_le_mul_right _ hwidth
    have hlong : 1 < segmentLength := by decide
    omega
  induction hcodes generalizing m head? ws done acc places with
  | nil =>
    obtain ⟨-, -, hholding, hplaced, hend, rfl⟩ := hrest
    rw [segments_nil fun h0 => by rw [hdone h0]; rfl] at hplaced hend
    rw [← hend]
    obtain ⟨hheight, hroom⟩ := hlow done hle
    exact (carries_segment hK hholding hplaced (Nat.le_trans hholding.height_le hheight) hroom).imp
      fun b _ _ hb => ⟨[], .nil, hb⟩
  | @cons put code puts codes hcode _ ih =>
    by_cases hfull : done = segmentLength
    · -- the segment is made, and the entry is the first of the next one
      obtain ⟨hinside, hcalls, hholding, hplaced, hend, hplaces⟩ := hrest
      rw [segments_full hfull] at hplaced hend
      rw [size_append, ← Nat.add_assoc] at hend
      rw [spans, if_pos hfull] at hplaces
      obtain ⟨hheight, hroom⟩ := hlow done hle
      refine (carries_segment hK hholding hplaced.left (Nat.le_trans hholding.height_le hheight) hroom).andThen
        (by omega) fun d hd hbehind hstack => ?_
      obtain ⟨hpointer, hframes⟩ := hbehind
      have hnext : Rest h (.ofBytecode p) K st stop m₀ (some (K.value acc)) [] 0 acc (code :: codes) places d := by
        refine ⟨hinside.trans hcalls hd, hframes.trans hcalls, ?_, hpointer ▸ hplaced.right, hpointer ▸ hend, ?_⟩
        · rw [hstack]
          exact hK.holding hholding.room
        · rw [hplaces, hpointer]
          rfl
      refine carries_more hsound hm₀ hwidth htop hcode hnext (by decide) hneeds hends fun d _ _ _ hrest hneeds hends => ?_
      have hpositive : 0 + 1 = 0 → some (K.value acc) = none := fun h => absurd h (Nat.succ_ne_zero 0)
      exact ih hpositive (by decide) hrest hneeds hends
    · have hlt : done < segmentLength := Nat.lt_of_le_of_ne hle hfull
      refine carries_more hsound hm₀ hwidth htop hcode hrest hlt hneeds hends fun d _ _ _ hrest hneeds hends => ?_
      have hpositive : done + 1 = 0 → head? = none := fun h => absurd h (Nat.succ_ne_zero done)
      exact ih hpositive hlt hrest hneeds hends

/-- The codes of the values are at the places of the literal. -/
theorem occupies_spans {first : Bool} {off : Nat} {es : List Expr}
    (hcodes : List.Forall₂ (fun e code => Compilation.expr pool e = .ok (code.drop (K.width - 1))) es codes)
    (hplaced : Placed c 0 off (segments K.make first done codes)) :
    List.Forall₂ (Occupies c pool) es (spans K.make (K.width - 1) first done off codes) := by
  have hentry : ∀ {e : Expr} {code : Compilation.Code} {off : Nat},
      Compilation.expr pool e = .ok (code.drop (K.width - 1)) → Placed c 0 off code →
        Occupies c pool e (off + size (code.take (K.width - 1)), off + size code) := by
    intro e code off he hplaced
    rw [← List.take_append_drop (K.width - 1) code] at hplaced
    refine ⟨_, he, hplaced.right, ?_⟩
    show off + size code = off + size (code.take (K.width - 1)) + size (code.drop (K.width - 1))
    rw [Nat.add_assoc, ← size_append, List.take_append_drop]
  induction hcodes generalizing first done off with
  | nil => exact .nil
  | cons he _ ih =>
    by_cases hfull : done = segmentLength
    · rw [segments_full hfull] at hplaced
      rw [spans, if_pos hfull]
      exact .cons (hentry he hplaced.right.left) (ih hplaced.right.right)
    · rw [segments_more hfull] at hplaced
      rw [spans, if_neg hfull]
      exact .cons (hentry he hplaced.left) (ih hplaced.right)

/-- The code of a literal builds it. -/
theorem builds_segments (hsound : t.Sound (.ofBytecode p)) (hK : IsSegmented h (.ofBytecode p) K) (hm : OnChart t m)
    (hwidth : 1 ≤ K.width) (hcodes : List.Forall₂ (Adds h p t pool K) puts codes) (hroom : K.room acc codes.length)
    (hempty : K.build [] = .ok (K.value acc))
    (hplaced : Placed (.ofBytecode p) 0 m.pointer (segments K.make true 0 codes)) :
    Builds h (.ofBytecode p) (m.pointer + size (segments K.make true 0 codes)) (K.width * segmentLength)
      (spans K.make (K.width - 1) true 0 m.pointer codes)
      (fun vs => K.value ((puts.zip vs).foldl (fun acc x => x.1 acc x.2) acc)) m := by
  have hrest : Rest h (.ofBytecode p) K m.stack (m.pointer + size (segments K.make true 0 codes)) m none [] 0 acc codes
      (spans K.make (K.width - 1) true 0 m.pointer codes) m :=
    ⟨.enters, rfl, ⟨rfl, rfl, hroom, _, hempty, rfl⟩, hplaced, rfl, rfl⟩
  have hcarries : ∀ (N T : Prop) (k : Nat), 1 ≤ k → (N → ValuesNeed h _ _ m _ k) → (T → ValuesEnd h _ _ m _) → _ :=
    fun N T k hk hneeds hends => carries_segments (N := N) (T := T) hsound hK hm hk hwidth (Nat.le_refl _) hcodes
      (fun _ => rfl) (Nat.zero_le _) hrest hneeds hends
  refine ⟨fun k hk hneeds => ?_, fun b hb hbehind => ?_, fun hends => ?_⟩
  · have hm := hcarries True False k hk (fun _ => hneeds) False.elim
    rw [Nat.add_assoc] at hm
    exact hm.needs
  · exact (hcarries False False 1 (Nat.le_refl 1) False.elim False.elim).leaves b hb hbehind
  · have hm := (hcarries False True 1 (Nat.le_refl 1) False.elim fun _ => hends).ends trivial
    exact hm.imp_right fun hfull => ⟨Nat.le_of_lt_succ hfull.1, hfull.2⟩

end

/-! ### Arrays and maps -/

section
variable {h : Host} {c : Code} {p : Program} {x : Compilation.Parts p} {t : Chart} {e : Expr} {code : Compilation.Code}
  {m : Machine}

theorem segmented_arrays (h : Host) (c : Code) : IsSegmented h c (arrays h.limits) where
  make := makes_arrays h c
  start hroom :=
    ⟨.array #[], build_arrays (Nat.zero_le _), extend_array_empty (Nat.le_trans (Nat.le_add_right ..) hroom)⟩

theorem segmented_maps (h : Host) (c : Code) : IsSegmented h c maps where
  make := makes_maps h c
  start _ := ⟨.map [], rfl, rfl⟩

theorem adds_array {b : Bytecode} {pool : Pool} (he : Compilation.expr pool e = .ok code) :
    Adds h b t pool (arrays h.limits) Array.push code := by
  refine ⟨[], code, e, rfl, rfl, he, fun N T top st head? ws done rest items m _ hstack _ htop => ?_⟩
  refine .here rfl htop ⟨rfl, [], fun w => ?_⟩
  obtain ⟨hlength, hvalues, hroom, segment, hbuild, hjoined⟩ := hstack
  obtain ⟨-, rfl⟩ := build_arrays_ok hbuild
  have hroom : items.size + (rest + 1) ≤ h.limits.maxArrayLength := hroom
  obtain ⟨hshort, hjoined⟩ := joined_push hjoined (by omega) w
  refine ⟨?_, ?_, ?_, _, build_arrays ?_, hjoined⟩
  · rw [List.nil_append, List.length_append, hlength]
    rfl
  · rw [Stack.values_push, hvalues, List.nil_append, List.reverse_append]
    rfl
  · show (items.push w).size + rest ≤ _
    rw [Array.size_push]
    omega
  · rw [List.nil_append, List.length_append]
    exact hshort

/-- A constant that the run of a program comes to push is one of its constants. -/
theorem constant_of_fetch (hx : x.Charted t) (hconstants : x.bytecode.constants.length < 2 ^ 64)
    (hentry : x.bytecode.entry < 2 ^ 64) (hm : OnChart t m) {k : Constant} {next : Nat}
    (hfetch : (Code.ofBytecode x.bytecode).fetch m.pointer = .ok (.pushConst ((Pool.ofProgram p).indexOf k), next)) :
    (Code.ofBytecode x.bytecode).constant? ((Pool.ofProgram p).indexOf k) = some k.value := by
  obtain ⟨s, -, hs, -⟩ := hm
  obtain ⟨i, hmem, hfetch', -⟩ := hx.fetches hconstants hentry hs
  rw [hfetch] at hfetch'
  cases hfetch'
  obtain ⟨front, back, hwhole⟩ := List.append_of_mem hmem
  have hsits := x.sound hconstants hentry
  rw [hwhole] at hsits
  have hindex : (Pool.ofProgram p).indexOf k < (Pool.ofProgram p).constants.length := hsits.at.2.1
  rw [constant?_ofBytecode]
  show ((Pool.ofProgram p).constants[_]?).map _ = _
  rw [Pool.getElem?_indexOf (List.idxOf_lt_length_iff.1 hindex)]
  rfl

theorem adds_map (hx : x.Charted t) (hconstants : x.bytecode.constants.length < 2 ^ 64)
    (hentry : x.bytecode.entry < 2 ^ 64) {value : Compilation.Code} (key : String)
    (he : Compilation.expr (Pool.ofProgram p) e = .ok value) :
    Adds h x.bytecode t (Pool.ofProgram p) maps (fun es w => Keyed.insert key w es)
      (.instr (.pushConst ((Pool.ofProgram p).indexOf (.string key))) :: value) := by
  refine ⟨[.instr (.pushConst _)], value, e, rfl, rfl, he,
    fun N T top st head? ws done rest es m hm hstack hplaced htop => ?_⟩
  have hfetch := hplaced.fetch
  have hstep := step_pushConst (h := h) hfetch (constant_of_fetch hx hconstants hentry hm hfetch)
  have hheight : m.stack.height + 1 ≤ top := htop
  refine .push hstep (Nat.lt_add_of_pos_right (Instruction.size_pos _)) (by omega) hheight
    ⟨rfl, [.string key], fun w => ?_⟩
  obtain ⟨hlength, hvalues, -, segment, hbuild, hjoined⟩ := hstack
  obtain ⟨ms, rfl, hsorted⟩ := mapOf_ok .nil hbuild
  refine ⟨?_, ?_, trivial, _, mapOf_append hlength hbuild key w, joined_insert hsorted hjoined key w⟩
  · rw [List.length_append, hlength]
    rfl
  · rw [Stack.values_push, Stack.values_push, hvalues, List.reverse_append]
    rfl

theorem adds_exprs {b : Bytecode} {pool : Pool} {es : List Expr} {codes : List Compilation.Code}
    (hes : Compilation.exprs pool es = .ok codes) :
    List.Forall₂ (Adds h b t pool (arrays h.limits)) (es.map fun _ => Array.push) codes :=
  List.forall₂_map_left_iff.2 ((Compilation.exprs_forall₂ hes).imp fun _ _ he => adds_array he)

theorem adds_entries (hx : x.Charted t) (hconstants : x.bytecode.constants.length < 2 ^ 64)
    (hentry : x.bytecode.entry < 2 ^ 64) {es : List (String × Expr)} {codes : List Compilation.Code}
    (hes : Compilation.entries (Pool.ofProgram p) es = .ok codes) :
    List.Forall₂ (Adds h x.bytecode t (Pool.ofProgram p) maps) (es.map fun e acc w => Keyed.insert e.1 w acc) codes := by
  refine List.forall₂_map_left_iff.2 ((Compilation.entries_forall₂ hes).imp fun e code hcode => ?_)
  obtain ⟨value, he, rfl⟩ := hcode
  exact adds_map hx hconstants hentry e.1 he

theorem foldl_push : ∀ (es : List Expr) (vs : List Value) (acc : Array Value), vs.length = es.length →
    ((es.map fun _ => Array.push).zip vs).foldl (fun acc x => x.1 acc x.2) acc = acc ++ vs.toArray
  | [], [], acc, _ => by simp
  | _ :: es, v :: vs, acc, hlength => by
    have hrest := foldl_push es vs (acc.push v) (Nat.succ.inj hlength)
    simpa using hrest

theorem foldl_insert (es : List (String × Expr)) (vs : List Value) (acc : List (String × Value)) :
    ((es.map fun e acc w => Keyed.insert e.1 w acc).zip vs).foldl (fun acc x => x.1 acc x.2) acc =
      Keyed.insertAll ((es.map Prod.fst).zip vs) acc := by
  simp [Keyed.insertAll, List.zip_map_left, List.foldl_map]

/-- The code of an array, wherever a machine on the chart comes to it. -/
theorem builds_array {b : Bytecode} {pool : Pool} (ht : t.Sound (.ofBytecode b)) (hm : OnChart t m) {es : List Expr}
    (hcode : Compilation.expr pool (.array es) = .ok code) (hlong : es.length ≤ h.limits.maxArrayLength)
    (hplaced : Placed (.ofBytecode b) 0 m.pointer code) :
    ∃ codes, Compilation.exprs pool es = .ok codes ∧
      List.Forall₂ (Occupies (.ofBytecode b) pool) es (spans .makeArray 0 true 0 m.pointer codes) ∧
      Builds h (.ofBytecode b) (m.pointer + size code) 128 (spans .makeArray 0 true 0 m.pointer codes)
        (fun vs => .array vs.toArray) m := by
  obtain ⟨codes, hes, rfl⟩ := Compilation.expr_array hcode
  have hvalues := Compilation.exprs_forall₂ hes
  have hoccupies := occupies_spans (K := arrays h.limits) hvalues hplaced
  have hroom : (#[] : Array Value).size + codes.length ≤ h.limits.maxArrayLength := by
    rw [← hvalues.length_eq]
    simpa using hlong
  obtain ⟨hneeds, hleaves, hends⟩ := builds_segments ht (segmented_arrays h _) hm (Nat.le_refl 1)
    (adds_exprs hes) hroom (build_arrays (Nat.zero_le _)) hplaced
  refine ⟨codes, hes, hoccupies, hneeds, fun b hb hbehind => ?_, hends⟩
  obtain ⟨vs, hvs, hb⟩ := hleaves b hb hbehind
  refine ⟨vs, hvs, ?_⟩
  have hlength : vs.length = es.length := hvs.length_eq.symm.trans hoccupies.length_eq.symm
  rw [hb, foldl_push es vs #[] hlength, Array.empty_append]
  rfl

/-- The code of a map, which has the key of each entry in front of its value. -/
theorem builds_map (hx : x.Charted t) (hconstants : x.bytecode.constants.length < 2 ^ 64)
    (hentry : x.bytecode.entry < 2 ^ 64) (hm : OnChart t m) {es : List (String × Expr)}
    (hcode : Compilation.expr (Pool.ofProgram p) (.map es) = .ok code)
    (hplaced : Placed (.ofBytecode x.bytecode) 0 m.pointer code) :
    ∃ codes, Compilation.entries (Pool.ofProgram p) es = .ok codes ∧
      List.Forall₂ (Occupies (.ofBytecode x.bytecode) (Pool.ofProgram p)) (es.map Prod.snd)
        (spans .makeMap 1 true 0 m.pointer codes) ∧
      Builds h (.ofBytecode x.bytecode) (m.pointer + size code) 256 (spans .makeMap 1 true 0 m.pointer codes)
        (fun vs => .map (Keyed.insertAll ((es.map Prod.fst).zip vs) [])) m := by
  obtain ⟨codes, hes, rfl⟩ := Compilation.expr_map hcode
  have hvalues : List.Forall₂ (fun e code => Compilation.expr (Pool.ofProgram p) e = .ok (code.drop 1))
      (es.map Prod.snd) codes := by
    refine List.forall₂_map_left_iff.2 ((Compilation.entries_forall₂ hes).imp fun e code hcode => ?_)
    obtain ⟨value, he, rfl⟩ := hcode
    exact he
  have hoccupies := occupies_spans (K := maps) hvalues hplaced
  obtain ⟨hneeds, hleaves, hends⟩ := builds_segments (hx.sound hconstants hentry) (segmented_maps h _) hm (by decide)
    (adds_entries hx hconstants hentry hes) trivial (show maps.build [] = .ok (maps.value []) from rfl) hplaced
  refine ⟨codes, hes, hoccupies, hneeds, fun b hb hbehind => ?_, hends⟩
  obtain ⟨vs, hvs, hb⟩ := hleaves b hb hbehind
  refine ⟨vs, hvs, ?_⟩
  rw [hb, foldl_insert es vs]
  rfl

end

end Persona.Machine

namespace Persona

open Compilation (size)
open Machine (Builds Occupies OnChart Steps spans)
open Simulation (Placed)

/-- Literals are built in segments. Wherever a run of a compiled program comes to the code of an array or a
map, of any number of entries: if the code of each value needs at most `k` operand slots, the code of the array
needs at most `128 + k` and that of the map at most `256 + k`; and if none of those codes fails to come to its
end, the code leaves one value, the array of what they have left, in order, or the map that has the entries
put in one after the other, unless the operand stack has no room for the segments. -/
theorem builds_literals {p : Program} {b : Bytecode} (hcompile : compile p = .ok b)
    (hconstants : b.constants.length < 2 ^ 64) (hentry : b.entry < 2 ^ 64) (h : Host) (profile : Profile) (clock : Clock)
    {n : Nat} {m : Machine} (hsteps : Steps h (.ofBytecode b) n (.start b (.start h profile clock)) m)
    {code : Compilation.Code} (hplaced : Placed (.ofBytecode b) 0 m.pointer code) :
    (∀ es, Compilation.expr (Pool.ofProgram p) (.array es) = .ok code → es.length ≤ h.limits.maxArrayLength →
      ∃ codes, Compilation.exprs (Pool.ofProgram p) es = .ok codes ∧
        List.Forall₂ (Occupies (.ofBytecode b) (Pool.ofProgram p)) es
          (spans .makeArray 0 true 0 m.pointer codes) ∧
        Builds h (.ofBytecode b) (m.pointer + size code) 128 (spans .makeArray 0 true 0 m.pointer codes)
          (fun vs => .array vs.toArray) m) ∧
    ∀ es, Compilation.expr (Pool.ofProgram p) (.map es) = .ok code →
      ∃ codes, Compilation.entries (Pool.ofProgram p) es = .ok codes ∧
        List.Forall₂ (Occupies (.ofBytecode b) (Pool.ofProgram p)) (es.map Prod.snd)
          (spans .makeMap 1 true 0 m.pointer codes) ∧
        Builds h (.ofBytecode b) (m.pointer + size code) 256 (spans .makeMap 1 true 0 m.pointer codes)
          (fun vs => .map (Keyed.insertAll ((es.map Prod.fst).zip vs) [])) m := by
  obtain ⟨x, rfl⟩ := Compilation.exists_parts hcompile
  obtain ⟨t, hx⟩ := x.exists_chart
  have hsound := hx.sound hconstants hentry
  have hm := Machine.onChart_steps hsound (OnChart.start hx.entry h profile clock) hsteps
  exact ⟨fun es hcode hlong => Machine.builds_array hsound hm hcode hlong hplaced,
    fun es hcode => Machine.builds_map hx hconstants hentry hm hcode hplaced⟩

/-- An array of two values. -/
def pair : Program := ⟨[.expr .start (.array [.literal .null, .literal (.bool true)])]⟩

def pairCode : Bytecode := ⟨[], [2, 3, 15, 2, 5, 0], 0⟩

/-- The machine in which the array is next. -/
def pairStart : Machine := .start pairCode (.start {} .default none)

theorem compile_pair : compile pair = .ok pairCode := by decide +kernel

theorem size_pair : size [.instr .pushNull, .instr .pushTrue, .instr (.makeArray 2)] = 4 := by decide +kernel

/-- The code of the array is where the machine stands. -/
theorem placed_pair :
    Placed (.ofBytecode pairCode) 0 0 [.instr .pushNull, .instr .pushTrue, .instr (.makeArray 2)] := by
  refine ⟨?_, ?_, ?_, ?_, trivial⟩
  · rw [size_pair]
    show 4 ≤ 6
    decide
  all_goals
    show (Code.ofBytecode pairCode).fetch _ = _
    rw [Machine.fetch_ofBytecode]
    decide +kernel

/-- Each of its values is pushed by one instruction. -/
theorem carries_pair {o : Nat} {v : Value} (hv : o = 0 ∧ v = .null ∨ o = 1 ∧ v = .bool true) {a : Machine}
    (ha : a.pointer = o) : Machine.Carries {} (.ofBytecode pairCode) True True (a.stack.height + 1) (o + 1) a
      fun b => b.stack = a.stack.push v := by
  obtain ⟨hnull, htrue, -⟩ := placed_pair.each
  obtain ⟨rfl, rfl⟩ | ⟨rfl, rfl⟩ := hv
  · rw [← ha] at hnull
    have hstep := Machine.step_pushNull (h := {}) hnull
    rw [ha] at hstep
    exact .push hstep (by omega) (Nat.le_succ _) (Nat.lt_succ_self _) rfl
  · have htrue : (Code.ofBytecode pairCode).fetch 1 = .ok (.pushTrue, 2) := htrue
    rw [← ha] at htrue
    have hstep := Machine.step_pushTrue (h := {}) htrue
    exact .push hstep (by omega) (Nat.le_succ _) (Nat.lt_succ_self _) rfl

theorem builds_literals_pair : compile pair = .ok pairCode ∧
    Machine.Needs {} (.ofBytecode pairCode) 4 129 pairStart ∧
    ∃ b, Machine.Inside {} (.ofBytecode pairCode) 4 pairStart b ∧ Machine.Behind 4 pairStart b ∧
      b.stack = pairStart.stack.push (.array #[.null, .bool true]) := by
  obtain ⟨codes, hcodes, -, hbuilds⟩ := (builds_literals compile_pair (by decide) (by decide) {} .default none
    (.none pairStart) placed_pair).1 [.literal .null, .literal (.bool true)] rfl (by decide)
  cases hcodes
  have hplaces : spans .makeArray 0 true 0 pairStart.pointer
      [Compilation.literalCode (Pool.ofProgram pair) .null,
        Compilation.literalCode (Pool.ofProgram pair) (.bool true)] = [(0, 1), (1, 2)] := by
    decide +kernel
  rw [hplaces, size_pair] at hbuilds
  have hbuilds : Builds {} (.ofBytecode pairCode) 4 128 [(0, 1), (1, 2)] (fun vs => .array vs.toArray) pairStart :=
    hbuilds
  have hvalue : ∀ span ∈ [(0, 1), (1, 2)], ∃ v, span.2 = span.1 + 1 ∧
      (span.1 = 0 ∧ v = Value.null ∨ span.1 = 1 ∧ v = .bool true) := by
    intro span hspan
    simp only [List.mem_cons, List.not_mem_nil, or_false] at hspan
    rcases hspan with rfl | rfl
    · exact ⟨.null, rfl, .inl ⟨rfl, rfl⟩⟩
    · exact ⟨.bool true, rfl, .inr ⟨rfl, rfl⟩⟩
  have hneed : Machine.ValuesNeed {} (.ofBytecode pairCode) 4 pairStart [(0, 1), (1, 2)] 1 := by
    intro span hspan a ha
    obtain ⟨v, hend, hv⟩ := hvalue span hspan
    rw [hend]
    exact (carries_pair hv ha.pointer).needs
  have hneeds := hbuilds.needs 1 (Nat.le_refl 1) hneed
  have hends : Machine.ValuesEnd {} (.ofBytecode pairCode) 4 pairStart [(0, 1), (1, 2)] := by
    intro span hspan a ha
    obtain ⟨v, hend, hv⟩ := hvalue span hspan
    rw [hend]
    have hheight : a.stack.height ≤ 0 + 129 := hneeds.height_le a ha.inside
    refine ((carries_pair hv ha.pointer).ends trivial).resolve_right fun hfull => ?_
    have hfull : 1024 < a.stack.height + 1 := hfull.1
    omega
  have hroom : ¬ 1024 ≤ 0 + 128 := by decide
  obtain ⟨b, hb, hbehind⟩ := (hbuilds.ends hends).resolve_right fun hfull => hroom hfull.1
  obtain ⟨vs, hvs, hstack⟩ := hbuilds.leaves b hb hbehind
  have hleft : ∀ {o : Nat} {v w : Value}, (o = 0 ∧ v = .null ∨ o = 1 ∧ v = .bool true) →
      Machine.Left {} (.ofBytecode pairCode) 4 pairStart (o, o + 1) w → w = v := by
    rintro o v w hv ⟨a, d, ha, hd, hdbehind, hw⟩
    have hpushed := (carries_pair hv ha.pointer).leaves d hd hdbehind
    rw [hw] at hpushed
    exact (List.cons.inj (congrArg Stack.values hpushed)).1
  cases hvs with
  | cons hfirst hvs =>
    cases hvs with
    | cons hsecond hvs =>
      cases hvs
      cases hleft (.inl ⟨rfl, rfl⟩) hfirst
      cases hleft (.inr ⟨rfl, rfl⟩) hsecond
      exact ⟨compile_pair, hneeds, b, hb, hbehind, hstack⟩

end Persona
