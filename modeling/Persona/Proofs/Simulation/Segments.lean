import Persona.Proofs.Simulation.Placement

/-! Many expressions, one after the other.

The values of arguments are pushed in order. Literals are assembled in segments: an
evaluation puts one entry after the other into the value of a literal, and the machine
makes segments and joins them. At every moment what lies on the stack, made and joined,
is the value that the evaluation has. -/
namespace Persona.Simulation

open Compilation (Piece size segments segmentLength size_append size_cons size_nil)
open Machine (step deliver mapOf)

/-! ### Arguments -/

section
variable {L : Linked} {k : Nat} {call : Caller}

/-- The codes of expressions compute their values. -/
abbrev Linked.ComputesAll (L : Linked) (k : Nat) (call : Caller) (es : List Expr)
    (codes : List Compilation.Code) : Prop :=
  List.Forall₂ (fun e code => L.Computes k code (Evaluation.expr L.host call e)) es codes

/-- Codes in order push the values of the expressions in order. -/
theorem follows_exprs (hcall : ∀ f vs, (call f vs).Grows) {es : List Expr}
    {codes : List Compilation.Code} (hes : L.ComputesAll k call es codes) {stop off next : Nat}
    {st stack : Stack} {frames : List CallFrame} {s u : Session} {before : Array Value} {ws : List Value}
    (hplaced : Placed L.code stop off codes.flatten) (hnext : off + size codes.flatten = next)
    (htwin : Twin L.pool L.table L.clock s u) (hws : AllAlike L.pool L.table before.toList ws)
    (hstack : stack.values = ws.reverse ++ st.values) :
    Follows L.host L.code L.clock k ⟨off, stack, frames, u⟩ (Evaluation.exprs L.host call before es) s
      fun vs s m => ∃ ws stack, AllAlike L.pool L.table vs.toList ws ∧ ws.length = before.size + es.length ∧
        stack.values = ws.reverse ++ st.values ∧ L.At next stack frames s m := by
  induction hes generalizing off stack s u before ws with
  | nil =>
    refine .done rfl ⟨ws, stack, hws, ?_, hstack, u, htwin, ?_⟩
    · rw [← hws.length_eq]
      simp
    · rw [← hnext]
      rfl
  | cons he _ ih =>
    rw [List.flatten_cons] at hplaced hnext
    rw [size_append, ← Nat.add_assoc] at hnext
    refine (he hplaced.left rfl htwin).bind (fun v => Evaluation.grows_exprs hcall _ _) ?_
    rintro v s m ⟨w, hw, u, htwin, rfl⟩
    have hws' : AllAlike L.pool L.table (before.push v).toList (ws ++ [w]) := by
      rw [Array.toList_push]
      exact hws.snoc hw
    have hstack' : (stack.push w).values = (ws ++ [w]).reverse ++ st.values := by
      rw [Stack.values_push, hstack, List.reverse_append]
      rfl
    refine (ih hplaced.right hnext htwin hws' hstack').imp ?_
    rintro vs s m ⟨ws, stack, hvs, hlength, hvalues, hat⟩
    refine ⟨ws, stack, hvs, ?_, hvalues, hat⟩
    rw [hlength, Array.size_push, List.length_cons]
    omega

end

/-! ### Segments -/

/-- How the literals of a sort are assembled. Every entry leaves `width` operands; of those of a
segment the instruction `make` makes what `build` does. The evaluation has an `acc` for the
entries so far, and there may be `room` for more. -/
structure Assembly (γ : Type) where
  make : Nat → Instruction
  width : Nat
  build : List Value → Except Fault Value
  value : γ → Value
  room : γ → Nat → Prop

/-- The machine makes segments as they are built. -/
def Makes (h : Host) (c : Code) (K : Assembly γ) : Prop :=
  ∀ {m : Machine} {ws : List Value} {segment : Value} {done next : Nat} {t : Stack},
    K.build ws = .ok segment → ws.length = K.width * done → c.fetch m.pointer = .ok (K.make done, next) →
    m.stack.values = ws.reverse ++ t.values →
    step h c m = deliver h (pure segment) false { m with pointer := next, stack := t }

/-- A segment behind the value of the segments before it, if there are any. -/
def joined (limits : Limits) : Option Value → Value → Except Fault Value
  | none, segment => .ok segment
  | some head, segment => Value.extend limits head segment

section
variable {γ ε : Type} {L : Linked} {K : Assembly γ} {k : Nat}

/-- The machine has the value of complete segments and the operands `ws` of `done` entries on
the stack where the evaluation has `acc`, and `rest` entries are to come. -/
structure Part (L : Linked) (K : Assembly γ) (st : Stack) (head? : Option Value) (ws : List Value)
    (done rest : Nat) (acc : γ) (stack : Stack) : Prop where
  length : ws.length = K.width * done
  values : stack.values = ws.reverse ++ (head?.toList ++ st.values)
  room : K.room acc rest
  made : ∃ segment whole, K.build ws = .ok segment ∧
    joined L.host.limits head? segment = .ok whole ∧ Alike L.pool L.table (K.value acc) whole

/-- The machine makes segments as they are built, and an empty one adds nothing. -/
structure Assembles (L : Linked) (K : Assembly γ) : Prop where
  make : Makes L.host L.code K
  start : ∀ {acc : γ} {rest : Nat} {w : Value}, Alike L.pool L.table (K.value acc) w → K.room acc rest →
    ∃ segment, K.build [] = .ok segment ∧ Value.extend L.host.limits w segment = .ok w

/-- The code of an entry does for the operands what the evaluation does for its value. -/
def Entry (L : Linked) (K : Assembly γ) (k : Nat) (f : γ → ε → Eval γ) (e : ε)
    (code : Compilation.Code) : Prop :=
  ∀ ⦃st stack : Stack⦄ ⦃head? : Option Value⦄ ⦃ws : List Value⦄ ⦃done rest : Nat⦄ ⦃acc : γ⦄
    ⦃stop off next : Nat⦄ ⦃frames : List CallFrame⦄ ⦃s u : Session⦄,
    Part L K st head? ws done (rest + 1) acc stack → Placed L.code stop off code → off + size code = next →
    Twin L.pool L.table L.clock s u →
      Follows L.host L.code L.clock k ⟨off, stack, frames, u⟩ (f acc e) s fun acc s m =>
        ∃ new stack, Part L K st head? (ws ++ new) (done + 1) rest acc stack ∧
          L.At next stack frames s m

/-- What makes a segment of the operands and joins it to those before. -/
def segmentCode (K : Assembly γ) (first : Bool) (done : Nat) : Compilation.Code :=
  .instr (K.make done) :: if first then [] else [.instr .extend]

/-- Behind the last entry the last segment is made. -/
theorem segments_nil {first : Bool} {done : Nat} (hdone : done = 0 → first = true) :
    segments K.make first done [] = segmentCode K first done := by
  rw [segments, segmentCode, if_neg]
  intro h0
  rw [Bool.and_eq_true, decide_eq_true_eq] at h0
  rw [hdone h0.1] at h0
  exact absurd h0.2 (by simp)

/-- A full segment is made before there is one more entry. -/
theorem segments_full {first : Bool} {done : Nat} (hfull : done = segmentLength) (code : Compilation.Code)
    (codes : List Compilation.Code) : segments K.make first done (code :: codes) =
      segmentCode K first done ++ (code ++ segments K.make false 1 codes) := by
  rw [segments, if_pos hfull, List.append_assoc]
  rfl

theorem segments_more {first : Bool} {done : Nat} (hmore : done ≠ segmentLength) (code : Compilation.Code)
    (codes : List Compilation.Code) : segments K.make first done (code :: codes) =
      code ++ segments K.make first (done + 1) codes := by
  rw [segments, if_neg hmore]

variable {st stack : Stack} {head? : Option Value} {ws : List Value} {rest done : Nat} {acc : γ}
  {stop off next : Nat} {frames : List CallFrame} {s u : Session}

theorem follows_segment (hK : Assembles L K) (hpart : Part L K st head? ws done rest acc stack)
    (hplaced : Placed L.code stop off (segmentCode K head?.isNone done))
    (hnext : off + size (segmentCode K head?.isNone done) = next) (htwin : Twin L.pool L.table L.clock s u) :
    Follows L.host L.code L.clock k ⟨off, stack, frames, u⟩ (pure acc) s fun a s m =>
      a = acc ∧ L.Pushes next st frames (K.value acc) s m := by
  obtain ⟨segment, whole, hbuild, hjoined, halike⟩ := hpart.made
  have hgrows : (pure acc : Eval γ).Grows := Eval.Grows.pure acc
  cases head? with
  | none =>
    cases hjoined
    have hmake := hK.make (m := ⟨off, stack, frames, u⟩) (t := st) hbuild hpart.length hplaced.fetch hpart.values
    refine Linked.follows_push hgrows htwin hmake (.done rfl ⟨rfl, segment, halike, u, htwin, ?_⟩)
    rw [← hnext]
    rfl
  | some head =>
    have hmake := hK.make (m := ⟨off, stack, frames, u⟩) (t := st.push head) hbuild hpart.length hplaced.fetch
      hpart.values
    have hextend := Machine.step_extend (h := L.host) (t := st)
      (m := ⟨off + (K.make done).size, (st.push head).push segment, frames, u⟩) hplaced.tail.fetch rfl
    rw [show Value.extend _ head segment = _ from hjoined] at hextend
    refine Linked.follows_push hgrows htwin hmake (Linked.follows_push hgrows htwin hextend
      (.done rfl ⟨rfl, whole, halike, u, htwin, ?_⟩))
    rw [← hnext, segmentCode, size_cons, ← Nat.add_assoc]
    rfl

/-- The first entry behind the value of complete segments. -/
theorem Assembles.part (hK : Assembles L K) {w : Value} (hw : Alike L.pool L.table (K.value acc) w)
    (hroom : K.room acc rest) : Part L K st (some w) [] 0 rest acc (st.push w) := by
  obtain ⟨segment, hbuild, hextend⟩ := hK.start hw hroom
  exact ⟨rfl, rfl, hroom, segment, w, hbuild, hextend, hw⟩

theorem grows_foldlM {f : γ → ε → Eval γ} (hf : ∀ a e, (f a e).Grows) (es : List ε) (acc : γ) :
    (es.foldlM f acc).Grows := by
  induction es generalizing acc with
  | nil => exact Eval.Grows.pure acc
  | cons e es ih =>
    rw [List.foldlM_cons]
    exact (hf acc e).bind ih

/-- The code of a literal follows the evaluation of its entries, from any point on. -/
theorem follows_segments (hK : Assembles L K) {f : γ → ε → Eval γ} (hf : ∀ a e, (f a e).Grows)
    {es : List ε} {codes : List Compilation.Code} (hes : List.Forall₂ (Entry L K k f) es codes)
    (hpart : Part L K st head? ws done es.length acc stack) (hdone : done = 0 → head? = none)
    (hplaced : Placed L.code stop off (segments K.make head?.isNone done codes))
    (hnext : off + size (segments K.make head?.isNone done codes) = next)
    (htwin : Twin L.pool L.table L.clock s u) :
    Follows L.host L.code L.clock k ⟨off, stack, frames, u⟩ (es.foldlM f acc) s fun a s m =>
      L.Pushes next st frames (K.value a) s m := by
  induction hes generalizing head? ws done acc stack off s u with
  | nil =>
    rw [segments_nil fun h0 => by rw [hdone h0]; rfl] at hplaced hnext
    refine (follows_segment hK hpart hplaced hnext htwin).imp ?_
    rintro a s m ⟨rfl, hpushes⟩
    exact hpushes
  | cons he hrest ih =>
    next e code es codes =>
    rw [List.foldlM_cons]
    by_cases hfull : done = segmentLength
    · rw [segments_full hfull] at hplaced hnext
      rw [size_append, size_append, ← Nat.add_assoc, ← Nat.add_assoc] at hnext
      have hgrows : ∀ a, ((f a e) >>= es.foldlM f).Grows := fun a => (hf a e).bind (grows_foldlM hf es)
      refine Follows.bind (x := pure acc)
        (follows_segment hK hpart hplaced.left rfl htwin) hgrows ?_
      rintro a s m ⟨rfl, w, hw, u, htwin, rfl⟩
      refine (he (hK.part hw hpart.room) hplaced.right.left rfl htwin).bind (grows_foldlM hf es) ?_
      rintro a s m ⟨new, stack, hpart, u, htwin, rfl⟩
      exact ih hpart (fun h0 => nomatch h0) hplaced.right.right hnext htwin
    · rw [segments_more hfull] at hplaced hnext
      rw [size_append, ← Nat.add_assoc] at hnext
      refine (he hpart hplaced.left rfl htwin).bind (grows_foldlM hf es) ?_
      rintro a s m ⟨new, stack, hpart, u, htwin, rfl⟩
      exact ih hpart (fun h0 => nomatch h0) hplaced.right hnext htwin

end

end Persona.Simulation
