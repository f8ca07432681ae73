import Persona.Proofs.Compilation.Validity
import Persona.Proofs.Instruction.Slots

/-! What compiled code has on the operand stack.

The code of every construct takes the slots that are there to slots that depend on the
construct alone: an expression leaves one value more, a statement what it found, which is two
slots for each `for` loop around it. So the sites of all pieces can be listed along the code,
and the lists of the parts of a program put together are a chart of the whole. -/
namespace Persona.Compilation

/-! ### Sites along a code -/

/-- The chart has these sites where the pieces of a code begin, and this one behind them. -/
def Bears (t : Chart) (after : Site) : Nat → Code → List Site → Prop
  | off, [], [] => t off = some after
  | off, p :: code, s :: sites => t off = some s ∧ Bears t after (off + p.size) code sites
  | _, [], _ :: _ => False
  | _, _ :: _, [] => False

section
variable {t : Chart} {before middle after : Site} {off : Nat} {xs ys code : Code} {sites : List Site}

theorem Bears.stop (h : Bears t after off code sites) : t (off + size code) = some after := by
  induction code generalizing off sites with
  | nil =>
    cases sites with
    | nil => exact h
    | cons s sites => exact h.elim
  | cons p code ih =>
    cases sites with
    | nil => exact h.elim
    | cons s sites =>
      have hstop := ih h.2
      rwa [size_cons, ← Nat.add_assoc]

theorem Bears.left {more : List Site} (h : Bears t after off (xs ++ ys) (sites ++ more))
    (hlength : sites.length = xs.length) (hmiddle : t (off + size xs) = some middle) :
    Bears t middle off xs sites := by
  induction xs generalizing off sites with
  | nil =>
    obtain rfl := List.length_eq_zero_iff.1 hlength
    exact hmiddle
  | cons p xs ih =>
    cases sites with
    | nil => cases hlength
    | cons s sites =>
      rw [size_cons, ← Nat.add_assoc] at hmiddle
      exact ⟨h.1, ih h.2 (Nat.succ.inj hlength) hmiddle⟩

theorem Bears.right {more : List Site} (h : Bears t after off (xs ++ ys) (sites ++ more))
    (hlength : sites.length = xs.length) : Bears t after (off + size xs) ys more := by
  induction xs generalizing off sites with
  | nil =>
    obtain rfl := List.length_eq_zero_iff.1 hlength
    exact h
  | cons p xs ih =>
    cases sites with
    | nil => cases hlength
    | cons s sites =>
      have hright := ih h.2 (Nat.succ.inj hlength)
      rwa [size_cons, ← Nat.add_assoc]

/-- From one site to another there are sites along the code, with which a chart that bears them
at an offset has a property. -/
def Shapes (before after : Site) (code : Code) (post : Chart → Nat → Prop) : Prop :=
  ∃ sites : List Site, sites.length = code.length ∧
    ∀ t off, Bears t after off code sites → t off = some before ∧ post t off

theorem shapes_nil (s : Site) : Shapes s s [] fun _ _ => True :=
  ⟨[], rfl, fun _ _ h => ⟨h, trivial⟩⟩

/-- The sites before and behind a piece can be any. -/
theorem shapes_piece (before after : Site) (p : Piece) : Shapes before after [p] fun _ _ => True :=
  ⟨[before], rfl, fun _ _ h => ⟨h.1, trivial⟩⟩

variable {P Q : Chart → Nat → Prop}

theorem Shapes.append (hx : Shapes before middle xs P) (hy : Shapes middle after ys Q) :
    Shapes before after (xs ++ ys)
      fun t off => P t off ∧ t (off + size xs) = some middle ∧ Q t (off + size xs) := by
  obtain ⟨sites, hlength, hx⟩ := hx
  obtain ⟨more, hmore, hy⟩ := hy
  refine ⟨sites ++ more, by rw [List.length_append, List.length_append, hlength, hmore], fun t off h => ?_⟩
  obtain ⟨hmiddle, hq⟩ := hy t _ (h.right hlength)
  obtain ⟨hbefore, hp⟩ := hx t off (h.left hlength hmiddle)
  exact ⟨hbefore, hp, hmiddle, hq⟩

theorem Shapes.imp (h : Shapes before after code P)
    (hpq : ∀ t off, t off = some before → t (off + size code) = some after → P t off → Q t off) :
    Shapes before after code Q := by
  obtain ⟨sites, hlength, h⟩ := h
  refine ⟨sites, hlength, fun t off hb => ?_⟩
  obtain ⟨hbefore, hp⟩ := h t off hb
  exact ⟨hbefore, hpq t off hbefore hb.stop hp⟩

/-- Filled gaps are as large as the gaps. -/
theorem Bears.of_filled {stop : Nat} {filled : Code} (hfilled : Filled stop off code filled)
    (h : Bears t after off filled sites) : Bears t after off code sites := by
  induction hfilled generalizing sites with
  | nil off => exact h
  | instr i _ ih =>
    cases sites with
    | nil => exact h.elim
    | cons s sites => exact ⟨h.1, ih h.2⟩
  | exit d _ _ _ ih =>
    cases sites with
    | nil => exact h.elim
    | cons s sites => exact ⟨h.1, ih h.2⟩

theorem Shapes.filled {place : Coordinate} {behind : Nat} {filled : Code} (h : Shapes before after code P)
    (hfill : fillExits place behind code = .ok filled) : Shapes before after filled P := by
  obtain ⟨sites, hlength, h⟩ := h
  refine ⟨sites, ?_, fun t off hb => h t off (hb.of_filled (filled_of_fillExits hfill off))⟩
  rw [hlength, (filled_of_fillExits hfill 0).length_eq]

end

/-! ### Checked code -/

/-- The piece stands where the chart has its operands, and leads to where it has what is left. A
gap needs what is on the stack where it leads to. -/
def Sits (t : Chart) (gap : Option Site) (o : Nat) : Piece → Prop
  | .instr i => ∃ s, t o = some s ∧ t.Checks o s i
  | .exit => ∃ s, gap = some s ∧ t o = some s

/-- The code takes slots to others, in a call or outside. -/
abbrev Shaped (gap : Option Site) (inFunction : Bool) (σ τ : List Slot) (code : Code) : Prop :=
  Shapes ⟨inFunction, σ⟩ ⟨inFunction, τ⟩ code fun t off => Each (Sits t gap) off code

section
variable {gap : Option Site} {inFunction : Bool} {σ σ' τ : List Slot} {xs ys code : Code} {i : Instruction}

theorem shaped_nil : Shaped gap inFunction σ σ [] := shapes_nil _

theorem Shaped.append (hx : Shaped gap inFunction σ σ' xs) (hy : Shaped gap inFunction σ' τ ys) :
    Shaped gap inFunction σ τ (xs ++ ys) :=
  (Shapes.append hx hy).imp fun _ _ _ _ h => each_append.2 ⟨h.1, h.2.2⟩

/-- An instruction with an effect; what it leaves may be taken for less. -/
theorem shaped_instr (heffect : i.effect σ = some σ') (hcovers : List.Forall₂ Slot.Covers σ' τ) :
    Shaped gap inFunction σ τ [.instr i] :=
  (shapes_piece _ _ _).imp fun t _ hbefore hafter _ =>
    ⟨⟨_, hbefore, t.checks_of_effect heffect ⟨τ, hcovers, hafter⟩⟩, trivial⟩

theorem shaped_effect (heffect : i.effect σ = some τ) : Shaped gap inFunction σ τ [.instr i] :=
  shaped_instr heffect (Slot.covers_refl τ)

theorem Shaped.cons (hi : Shaped gap inFunction σ σ' [.instr i]) (hcode : Shaped gap inFunction σ' τ code) :
    Shaped gap inFunction σ τ (.instr i :: code) := hi.append hcode

/-! ### Branches -/

section
variable (gap) {post other : Chart → Nat → Prop}

/-- A test, and code that is left out where it fails. -/
theorem shapes_skip {test yes : Code} (htest : Shaped gap inFunction σ (.value :: σ) test)
    (hyes : Shapes ⟨inFunction, σ⟩ ⟨inFunction, σ⟩ yes post) :
    Shapes ⟨inFunction, σ⟩ ⟨inFunction, σ⟩ (test ++ .instr (.jumpIfFalse (size yes)) :: yes) fun t off =>
      post t (off + size test + 3) ∧ (Each (Sits t gap) (off + size test + 3) yes →
        Each (Sits t gap) off (test ++ .instr (.jumpIfFalse (size yes)) :: yes)) := by
  refine (Shapes.append htest (Shapes.append (shapes_piece _ _ _) hyes)).imp fun t off _ hstop h => ?_
  obtain ⟨htestEach, hjump, -, hbehind, hpost⟩ := h
  simp only [size_append, size_cons, size_nil, Piece.size_instr, size_jumpIfFalse, Nat.add_zero]
    at hstop hbehind hpost
  refine ⟨hpost, fun hyesEach => each_append.2 ⟨htestEach, ⟨_, hjump, by omega, _, _, rfl, hbehind, _, ?_, hstop⟩,
    hyesEach⟩⟩
  push_cast
  omega

/-- A test, and a code for each outcome. -/
theorem shapes_choice {test yes no : Code} (htest : Shaped gap inFunction σ (.value :: σ) test)
    (hyes : Shapes ⟨inFunction, σ⟩ ⟨inFunction, τ⟩ yes post)
    (hno : Shapes ⟨inFunction, σ⟩ ⟨inFunction, τ⟩ no other) :
    Shapes ⟨inFunction, σ⟩ ⟨inFunction, τ⟩
      (test ++ .instr (.jumpIfFalse (size yes + 3)) :: (yes ++ .instr (.jump (size no)) :: no)) fun t off =>
      (post t (off + size test + 3) ∧ t (off + size test + 3 + size yes + 3) = some ⟨inFunction, σ⟩ ∧
        t (off + size test + 3 + size yes + 3 + size no) = some ⟨inFunction, τ⟩ ∧
        other t (off + size test + 3 + size yes + 3)) ∧
      (Each (Sits t gap) (off + size test + 3) yes → Each (Sits t gap) (off + size test + 3 + size yes + 3) no →
        Each (Sits t gap) off
          (test ++ .instr (.jumpIfFalse (size yes + 3)) :: (yes ++ .instr (.jump (size no)) :: no))) := by
  refine (Shapes.append htest (Shapes.append (shapes_piece _ _ _) (Shapes.append hyes
    (Shapes.append (shapes_piece _ _ _) hno)))).imp fun t off _ hstop h => ?_
  obtain ⟨htestEach, hjump, -, hbehind, hpost, hpast, -, hother, hno⟩ := h
  simp only [size_append, size_cons, size_nil, Piece.size_instr, size_jumpIfFalse, size_jump, Nat.add_zero]
    at hstop hbehind hpost hpast hother hno
  have hend : t (off + size test + 3 + size yes + 3 + size no) = some ⟨inFunction, τ⟩ :=
    (congrArg t (by omega)).trans hstop
  refine ⟨⟨hpost, hother, hend, hno⟩, fun hyesEach hnoEach => each_append.2 ⟨htestEach,
    ⟨_, hjump, by omega, _, _, rfl, hbehind, _, ?_, hother⟩, each_append.2 ⟨hyesEach, ⟨_, hpast, _, ?_, hend⟩,
      hnoEach⟩⟩⟩
  · push_cast
    omega
  · push_cast
    rfl

end

/-! ### Segments -/

/-- What the entries of a segment leave. -/
def filled (width done : Nat) : List Slot := List.replicate (width * done) .value

theorem filled_succ (width done : Nat) (σ : List Slot) :
    List.replicate width .value ++ (filled width done ++ σ) = filled width (done + 1) ++ σ := by
  rw [filled, filled, ← List.append_assoc, List.replicate_append_replicate, Nat.mul_succ, Nat.add_comm]

theorem filled_push (done : Nat) (σ : List Slot) :
    filled 1 done ++ .value :: σ = filled 1 (done + 1) ++ σ := by
  rw [filled, filled, Nat.one_mul, Nat.one_mul, List.replicate_succ', List.append_assoc]
  rfl

/-- A literal is one value, made of any number of segments. -/
theorem shaped_segments {make : Nat → Instruction} {kind : Slot} {width : Nat}
    (hmake : ∀ n σ, (make n).effect (filled width n ++ σ) = some (kind :: σ))
    (hextend : ∀ σ, Instruction.extend.effect (kind :: kind :: σ) = some (kind :: σ))
    (hkind : kind.isOperand = true) {values : List Code}
    (hvalues : ∀ v ∈ values, ∀ σ, Shaped gap inFunction σ (List.replicate width .value ++ σ) v)
    {first : Bool} {done : Nat} (hdone : first = true ∨ 0 < done) :
    Shaped gap inFunction (filled width done ++ if first then σ else kind :: σ) (.value :: σ)
      (segments make first done values) := by
  have hvalue : List.Forall₂ Slot.Covers (kind :: σ) (.value :: σ) := .cons (.inr ⟨rfl, hkind⟩) (Slot.covers_refl σ)
  induction values generalizing first done with
  | nil =>
    have hempty : (decide (done = 0) && !first) = false := by
      rcases hdone with rfl | hpos
      · simp
      · simp [Nat.ne_of_gt hpos]
    unfold segments
    rw [hempty]
    cases first with
    | true => exact shaped_instr (hmake done σ) hvalue
    | false => exact (shaped_effect (hmake done _)).cons (shaped_instr (hextend σ) hvalue)
  | cons v values ih =>
    have hv := hvalues v (List.mem_cons_self ..)
    have hrest := fun w hw => hvalues w (List.mem_cons_of_mem _ hw)
    have hone : List.replicate width .value ++ kind :: σ = filled width 1 ++ kind :: σ := by
      rw [filled, Nat.mul_one]
    unfold segments
    by_cases hfull : done = segmentLength
    · have hnext : Shaped gap inFunction (filled width 1 ++ kind :: σ) (.value :: σ)
          (segments make false 1 values) := ih hrest (.inr Nat.one_pos)
      have hentry := hv (kind :: σ)
      rw [hone] at hentry
      rw [if_pos hfull]
      cases first with
      | true => exact ((shaped_effect (hmake done σ)).append hentry).append hnext
      | false =>
        exact (((shaped_effect (hmake done _)).cons (shaped_effect (hextend σ))).append hentry).append hnext
    · have hnext : Shaped gap inFunction (filled width (done + 1) ++ if first then σ else kind :: σ)
          (.value :: σ) (segments make first (done + 1) values) := ih hrest (.inr (Nat.succ_pos done))
      rw [← filled_succ] at hnext
      rw [if_neg hfull]
      exact (hv _).append hnext

/-! ### Expressions -/

variable {pool : Pool}

theorem all_filled (width done : Nat) : (filled width done).all Slot.isOperand = true :=
  List.all_eq_true.2 fun s hs => by rw [List.eq_of_mem_replicate hs]; rfl

theorem effect_makeArray (n : Nat) (σ : List Slot) :
    (Instruction.makeArray n).effect (filled 1 n ++ σ) = some (.items :: σ) := by
  have hlength : (filled 1 n).length = n := by rw [filled, List.length_replicate, Nat.one_mul]
  have htake : (filled 1 n ++ σ).take n = filled 1 n := List.take_left' hlength
  have hdrop : (filled 1 n ++ σ).drop n = σ := List.drop_left' hlength
  refine Instruction.effect_eq_some.2 ⟨(congrArg (·.all Slot.isOperand) htake).trans (all_filled ..), ?_⟩
  rw [Instruction.leaves, hdrop, if_pos (by rw [List.length_append]; omega)]

theorem effect_makeMap (n : Nat) (σ : List Slot) :
    (Instruction.makeMap n).effect (filled 2 n ++ σ) = some (.entries :: σ) := by
  have hlength : (filled 2 n).length = 2 * n := List.length_replicate
  have htake : (filled 2 n ++ σ).take (2 * n) = filled 2 n := List.take_left' hlength
  have hdrop : (filled 2 n ++ σ).drop (2 * n) = σ := List.drop_left' hlength
  refine Instruction.effect_eq_some.2 ⟨(congrArg (·.all Slot.isOperand) htake).trans (all_filled ..), ?_⟩
  rw [Instruction.leaves, hdrop, if_pos (by rw [List.length_append]; omega)]

/-- A call takes the arguments and what is called. -/
theorem effect_call (argc : Nat) (discard : Bool) (σ : List Slot) :
    (Instruction.call argc discard).effect (filled 1 argc ++ .value :: σ) =
      some ((if discard then [] else [.value]) ++ σ) := by
  have hlength : (filled 1 argc).length = argc := by rw [filled, List.length_replicate, Nat.one_mul]
  have htake : (filled 1 argc ++ .value :: σ).take (argc + 1) = filled 1 argc ++ [.value] := by
    rw [List.append_cons, List.take_left' (by rw [List.length_append, hlength]; rfl)]
  have hdrop : (filled 1 argc ++ .value :: σ).drop (argc + 1) = σ := by
    rw [← List.drop_drop, List.drop_left' hlength]
    rfl
  have hoperands : (filled 1 argc ++ [Slot.value]).all Slot.isOperand = true := by
    rw [List.all_append, all_filled]
    rfl
  refine Instruction.effect_eq_some.2 ⟨(congrArg (·.all Slot.isOperand) htake).trans hoperands, ?_⟩
  rw [Instruction.leaves, hdrop, if_pos (by rw [List.length_append, List.length_cons]; omega)]

theorem shaped_literal (l : Literal) : Shaped gap inFunction σ (.value :: σ) (literalCode pool l) := by
  cases l with
  | bool b =>
    cases b with
    | true => exact shaped_effect rfl
    | false => exact shaped_effect rfl
  | _ => exact shaped_effect rfl

theorem shaped_name (name : String) : Shaped gap inFunction σ (.value :: σ) (nameCode pool name) := by
  unfold nameCode
  split
  · exact shaped_effect rfl
  · exact shaped_effect rfl

theorem shaped_and {left right : Code} (hl : ∀ σ, Shaped gap inFunction σ (.value :: σ) left)
    (hr : ∀ σ, Shaped gap inFunction σ (.value :: σ) right) :
    Shaped gap inFunction σ (.value :: σ) (left ++ .instr (.jumpIfFalse (size right + 3)) ::
      (right ++ [.instr (.jump 1), .instr .pushFalse])) := by
  have hfalse : Shaped gap inFunction σ (.value :: σ) [.instr .pushFalse] := shaped_effect rfl
  exact (shapes_choice gap (hl σ) (hr σ) hfalse).imp fun t off _ _ h => h.2 h.1.1 h.1.2.2.2

theorem shaped_or {left right : Code} (hl : ∀ σ, Shaped gap inFunction σ (.value :: σ) left)
    (hr : ∀ σ, Shaped gap inFunction σ (.value :: σ) right) :
    Shaped gap inFunction σ (.value :: σ) (left ++ .instr (.jumpIfFalse 4) :: .instr .pushTrue ::
      .instr (.jump (size right)) :: right) := by
  have htrue : Shaped gap inFunction σ (.value :: σ) [.instr .pushTrue] := shaped_effect rfl
  exact (shapes_choice gap (hl σ) htrue (hr σ)).imp fun t off _ _ h => h.2 h.1.1 h.1.2.2.2

/-- A call whose result is kept or dropped. -/
theorem shaped_callCode (argc : Nat) (drop : Bool) :
    Shaped gap inFunction (filled 1 argc ++ .value :: σ) ((if drop then [] else [.value]) ++ σ)
      (callCode argc drop) := by
  rw [callCode]
  by_cases hlong : (drop && decide (Instruction.shortArgcMax < argc)) = true
  · rw [if_pos hlong]
    obtain ⟨rfl, -⟩ := Bool.and_eq_true_iff.1 hlong
    exact (shaped_effect (effect_call argc false σ)).cons (shaped_effect rfl)
  · rw [if_neg hlong]
    exact shaped_effect (effect_call argc drop σ)

/-- The values of codes one behind the other. -/
theorem shaped_flatten {values : List Code}
    (hvalues : ∀ v ∈ values, ∀ σ, Shaped gap inFunction σ (.value :: σ) v) :
    Shaped gap inFunction σ (filled 1 values.length ++ σ) values.flatten := by
  induction values generalizing σ with
  | nil => exact shaped_nil
  | cons v values ih =>
    have hrest : Shaped gap inFunction (.value :: σ) (filled 1 values.length ++ .value :: σ) values.flatten :=
      ih fun w hw => hvalues w (List.mem_cons_of_mem _ hw)
    rw [filled_push] at hrest
    exact (hvalues v (List.mem_cons_self ..) σ).append hrest

/-- The codes of expressions, one for each of them. -/
theorem exprs_forall₂ {es : List Expr} {values : List Code} (h : exprs pool es = .ok values) :
    List.Forall₂ (fun e value => expr pool e = .ok value) es values := by
  induction es generalizing values with
  | nil =>
    cases h
    exact .nil
  | cons e es ih =>
    obtain ⟨first, rest, he, hes, rfl⟩ := exprs_cons h
    exact .cons he (ih hes)

/-- The codes of entries, each with its key in front of the value. -/
theorem entries_forall₂ {es : List (String × Expr)} {values : List Code} (h : entries pool es = .ok values) :
    List.Forall₂ (fun e code => ∃ value, expr pool e.2 = .ok value ∧
      code = .instr (.pushConst (pool.indexOf (.string e.1))) :: value) es values := by
  induction es generalizing values with
  | nil =>
    cases h
    exact .nil
  | cons e es ih =>
    obtain ⟨first, rest, he, hes, rfl⟩ := entries_cons h
    exact .cons ⟨first, he, rfl⟩ (ih hes)

/-- A call from its parts. -/
theorem shaped_call {callee : Code} {values : List Code} {argc : Nat} (hargc : values.length = argc)
    (hcallee : ∀ σ, Shaped gap inFunction σ (.value :: σ) callee)
    (hvalues : ∀ v ∈ values, ∀ σ, Shaped gap inFunction σ (.value :: σ) v) (drop : Bool) :
    Shaped gap inFunction σ ((if drop then [] else [.value]) ++ σ)
      (callee ++ (values.flatten ++ callCode argc drop)) := by
  subst hargc
  exact (hcallee σ).append ((shaped_flatten hvalues).append (shaped_callCode _ drop))

theorem callCode_kept (argc : Nat) : callCode argc false = [.instr (.call argc false)] := rfl

mutual

/-- The code of an expression leaves one value. -/
theorem shaped_expr : ∀ (e : Expr) {code : Code}, expr pool e = .ok code →
    ∀ σ, Shaped gap inFunction σ (.value :: σ) code
  | .literal l, code, h, σ => by
    cases h
    exact shaped_literal l
  | .identifier i, code, h, σ => by
    cases h
    exact shaped_name i.name
  | .binary op l r, code, h, σ => by
    by_cases hand : op = .and
    · subst hand
      obtain ⟨left, right, hl, hr, -, rfl⟩ := expr_and h
      exact shaped_and (shaped_expr l hl) (shaped_expr r hr)
    by_cases hor : op = .or
    · subst hor
      obtain ⟨left, right, hl, hr, -, rfl⟩ := expr_or h
      exact shaped_or (shaped_expr l hl) (shaped_expr r hr)
    obtain ⟨left, right, hl, hr, rfl⟩ := expr_binary hand hor h
    have heffect : (Instruction.binOp op).effect (.value :: .value :: σ) = some (.value :: σ) := by
      cases op with
      | and => exact absurd rfl hand
      | or => exact absurd rfl hor
      | _ => rfl
    exact (shaped_expr l hl σ).append ((shaped_expr r hr _).append (shaped_effect heffect))
  | .unary op e, code, h, σ => by
    obtain ⟨operand, he, rfl⟩ := expr_unary h
    exact (shaped_expr e he σ).append (shaped_effect rfl)
  | .assign target value, code, h, σ => by
    obtain ⟨valueCode, he, rfl⟩ := expr_assign h
    exact (shaped_expr value he σ).append (shaped_effect rfl)
  | .call place callee arguments, code, h, σ => by
    obtain ⟨-, function, values, hf, hvs, rfl⟩ := expr_call h
    rw [← callCode_kept]
    exact shaped_call (exprs_forall₂ hvs).length_eq.symm (shaped_expr callee hf) (shaped_exprs arguments hvs) false
  | .array elements, code, h, σ => by
    obtain ⟨values, hvs, rfl⟩ := expr_array h
    exact shaped_segments effect_makeArray (fun _ => rfl) rfl (shaped_exprs elements hvs) (.inl rfl)
  | .map es, code, h, σ => by
    obtain ⟨values, hvs, rfl⟩ := expr_map h
    exact shaped_segments effect_makeMap (fun _ => rfl) rfl (shaped_entries es hvs) (.inl rfl)
  | .index object key, code, h, σ => by
    obtain ⟨o, k, ho, hk, rfl⟩ := expr_index h
    exact (shaped_expr object ho σ).append ((shaped_expr key hk _).append (shaped_effect rfl))
termination_by structural e => e

theorem shaped_exprs : ∀ (es : List Expr) {values : List Code}, exprs pool es = .ok values →
    ∀ v ∈ values, ∀ σ, Shaped gap inFunction σ (.value :: σ) v
  | [], values, h => by
    cases h
    exact fun v hv => absurd hv List.not_mem_nil
  | e :: es, values, h => by
    obtain ⟨first, rest, he, hes, rfl⟩ := exprs_cons h
    exact List.forall_mem_cons.2 ⟨shaped_expr e he, shaped_exprs es hes⟩
termination_by structural es => es

theorem shaped_entries : ∀ (es : List (String × Expr)) {values : List Code}, entries pool es = .ok values →
    ∀ v ∈ values, ∀ σ, Shaped gap inFunction σ (.value :: .value :: σ) v
  | [], values, h => by
    cases h
    exact fun v hv => absurd hv List.not_mem_nil
  | (key, e) :: es, values, h => by
    obtain ⟨first, rest, he, hes, rfl⟩ := entries_cons h
    exact List.forall_mem_cons.2 ⟨fun σ => (shaped_effect rfl).cons (shaped_expr e he _), shaped_entries es hes⟩
termination_by structural es => es

end

theorem shaped_dropped {e : Expr} (h : dropped pool e = .ok code) : Shaped gap inFunction σ σ code := by
  by_cases hcall : ∃ place callee arguments, e = .call place callee arguments
  · obtain ⟨place, callee, arguments, rfl⟩ := hcall
    obtain ⟨-, function, values, hf, hvs, rfl⟩ := dropped_call h
    exact shaped_call (exprs_forall₂ hvs).length_eq.symm (shaped_expr callee hf) (shaped_exprs arguments hvs) true
  · obtain ⟨value, he, rfl⟩ := dropped_other (fun p c as heq => hcall ⟨p, c, as, heq⟩) h
    exact (shaped_expr e he σ).append (shaped_effect rfl)

end

/-! ### Boundaries of statements -/

/-- The slots of `for` loops, two for each. -/
def loopSlots : Nat → List Slot
  | 0 => []
  | loops + 1 => .cursor :: .loop :: loopSlots loops

theorem length_loopSlots (loops : Nat) : (loopSlots loops).length = 2 * loops := by
  induction loops with
  | zero => rfl
  | succ loops ih =>
    rw [loopSlots, List.length_cons, List.length_cons, ih]
    omega

/-- What is on the stack between statements inside so many `for` loops. -/
def Surroundings.site (around : Surroundings) (loops : Nat) : Site := ⟨around.inFunction, loopSlots loops⟩

/-- What is on the stack where a `break` leads to. -/
def Surroundings.gap (around : Surroundings) (loops : Nat) : Option Site :=
  if around.sinceLoop.isSome then some (around.site loops) else none

@[simp] theorem Surroundings.gap_after (around : Surroundings) (code : Code) (loops : Nat) :
    (around.after code).gap loops = around.gap loops := by
  rw [gap, gap, isSome_after]
  rfl

@[simp] theorem Surroundings.gap_branch (around : Surroundings) (code : Code) (loops : Nat) :
    (around.branch code).gap loops = around.gap loops := by
  rw [gap, gap, isSome_branch]
  rfl

/-- Statements whose code begins at an offset, inside so many `for` loops of their function. -/
structure Block where
  around : Surroundings
  entries : List Nat
  statements : List Stmt
  offset : Nat
  loops : Nat

/-- The blocks that stand directly in a statement. -/
inductive Inner (pool : Pool) (around : Surroundings) (es : List Nat) (off loops : Nat) : Stmt → Block → Prop
  | yes {place : Coordinate} {test : Expr} {yes : List Stmt} {no : Option Stmt} {testCode : Code} :
    expr pool test = .ok testCode →
    Inner pool around es off loops (.cond place test yes no)
      ⟨around.branch testCode, es, yes, off + size testCode + 3, loops⟩
  | no {place : Coordinate} {test : Expr} {yes : List Stmt} {no : Stmt} {testCode yesCode : Code}
    {mid : List Nat} : expr pool test = .ok testCode →
    (stmts pool (around.branch testCode) [] yes).run es = .ok (yesCode, mid) →
    Inner pool around es off loops (.cond place test yes (some no))
      ⟨((around.branch testCode).after yesCode).after [.exit], mid, [no],
        off + size testCode + 3 + size yesCode + 3, loops⟩
  | whileBody {place : Coordinate} {test : Expr} {body : List Stmt} {testCode : Code} :
    expr pool test = .ok testCode →
    Inner pool around es off loops (.whileLoop place test body)
      ⟨⟨around.inFunction, true, some (size testCode + 3)⟩, es, body, off + size testCode + 3, loops⟩
  | forBody {place : Coordinate} {name : String} {iterable : Expr} {body : List Stmt} {iterableCode : Code} :
    expr pool iterable = .ok iterableCode →
    Inner pool around es off loops (.forEach place name iterable body)
      ⟨⟨around.inFunction, true, some (3 + (Instruction.defineVar (pool.indexOf (.string name))).size)⟩, es,
        body, off + size iterableCode + 1 + 3 + (Instruction.defineVar (pool.indexOf (.string name))).size,
        loops + 1⟩
  | block {place : Coordinate} {body : List Stmt} :
    Inner pool around es off loops (.block place body) ⟨{ around with inBlock := true }, es, body, off, loops⟩

/-- The offsets where a statement of a block begins or ends, and the number of `for` loops
around it. -/
inductive Boundary (pool : Pool) : Block → Nat → Nat → Prop
  | here (b : Block) : Boundary pool b b.offset b.loops
  | later {around : Surroundings} {es mid : List Nat} {s : Stmt} {ss : List Stmt} {off loops o n : Nat}
    {code : Code} : (stmt pool around s).run es = .ok (code, mid) →
    Boundary pool ⟨around.after code, mid, ss, off + size code, loops⟩ o n →
    Boundary pool ⟨around, es, s :: ss, off, loops⟩ o n
  | inner {around : Surroundings} {es : List Nat} {s : Stmt} {ss : List Stmt} {off loops o n : Nat}
    {b : Block} : Inner pool around es off loops s b → Boundary pool b o n →
    Boundary pool ⟨around, es, s :: ss, off, loops⟩ o n

/-! ### Loops -/

section
variable (gap : Option Site) {inFunction : Bool} {σ inner head start : List Slot} {post : Chart → Nat → Prop}

/-- A loop from its parts. Its head is tested with `head` on the stack, its body begins with
`start`; a `break` and the way back have `inner`, and it ends with `σ`. -/
theorem shapes_loop {keyword : String} {place : Coordinate} {test body tail code : Code}
    {exit : Int → Instruction} (hsize : ∀ d, (exit d).size = 3)
    (hexit : ∀ (t : Chart) o d, 0 ≤ d → t (o + 3) = some ⟨inFunction, start⟩ →
      t.Lands (o + 3) d ⟨inFunction, σ⟩ → t.Checks o ⟨inFunction, head⟩ (exit d))
    (h : loopCode keyword place test exit body tail = .ok code)
    (htest : Shaped gap inFunction inner head test) (htail : Shaped gap inFunction inner σ tail)
    (hbody : Shapes ⟨inFunction, start⟩ ⟨inFunction, inner⟩ body post) :
    Shapes ⟨inFunction, inner⟩ ⟨inFunction, σ⟩ code fun t off => post t (off + size test + 3) ∧
      (Each (Sits t (some ⟨inFunction, inner⟩)) (off + size test + 3) body → Each (Sits t gap) off code) := by
  obtain ⟨filled, hfill, hback, hleave, rfl⟩ := loopCode_ok h
  refine (Shapes.append htest (Shapes.append (shapes_piece _ ⟨inFunction, start⟩ _)
    (Shapes.append (hbody.filled hfill) (Shapes.append (shapes_piece _ ⟨inFunction, inner⟩ _) htail)))).imp
    fun t off hstart hstop h => ?_
  obtain ⟨heach, hhead, -, hbegin, hpost, hend, -, htails, htail⟩ := h
  have hfilled := filled_of_fillExits hfill (off + size test + 3)
  simp only [size_append, size_cons, size_nil, Piece.size_instr, size_jump, hsize, hfilled.size_eq,
    Nat.add_zero] at hstop hbegin hpost hend htails htail
  refine ⟨hpost, fun hsits => each_append.2 ⟨heach, ⟨_, hhead, hexit t _ _ (by omega) hbegin ⟨_, ?_, hstop⟩⟩, ?_⟩⟩
  · push_cast
    omega
  rw [Piece.size_instr, hsize]
  refine each_append.2 ⟨hfilled.each hsits (fun _ _ hi => hi) ?_, ?_⟩
  · rintro o d - hd ⟨s, hs, ho⟩
    cases hs
    exact ⟨_, ho, _, hd, htails⟩
  · rw [hfilled.size_eq]
    refine ⟨⟨_, hend, off, ?_, hstart⟩, htail⟩
    push_cast
    omega

end

/-! ### Statements -/

/-- Where functions are entered and where the loop around begins as the chart says, all pieces of
the code sit, and what is inside of it has the slots of its loops. -/
def Serves (table : Table) (around : Surroundings) (loops : Nat) (code : Code) (inside : Nat → Nat → Nat → Prop)
    (t : Chart) (off : Nat) : Prop :=
  (∀ x ∈ table, t x.1 = some .entry) → LoopMarked (fun o => t o = some (around.site loops)) around off →
    Each (Sits t (around.gap loops)) off code ∧ ∀ o n, inside off o n → t o = some (around.site n)

/-- The code of statements leaves what it finds, two slots for each `for` loop around it, and has
this also at their boundaries. -/
abbrev Levels (pool : Pool) (table : Table) (around : Surroundings) (es : List Nat) (ss : List Stmt) (loops : Nat)
    (code : Code) : Prop :=
  Shapes (around.site loops) (around.site loops) code
    (Serves table around loops code fun off => Boundary pool ⟨around, es, ss, off, loops⟩)

/-- The boundaries of the blocks in a statement. -/
def Within (pool : Pool) (around : Surroundings) (es : List Nat) (loops : Nat) (s : Stmt) (off o n : Nat) : Prop :=
  ∃ b, Inner pool around es off loops s b ∧ Boundary pool b o n

section
variable {pool : Pool} {table : Table} {around : Surroundings} {es mid : List Nat} {s : Stmt} {ss : List Stmt}
  {loops : Nat} {first code : Code} {t : Chart} {off : Nat}

/-- Code without blocks. -/
theorem Shapes.serves {after : Site}
    (h : Shapes (around.site loops) after code fun t off => Each (Sits t (around.gap loops)) off code)
    (hinner : ∀ off b, ¬ Inner pool around es off loops s b) :
    Shapes (around.site loops) after code (Serves table around loops code (Within pool around es loops s)) := by
  refine h.imp fun t off _ _ heach _ _ => ⟨heach, ?_⟩
  rintro o n ⟨b, hb, -⟩
  exact absurd hb (hinner off b)

/-- The boundaries of statements are those of the first one and those of the others. -/
theorem boundary_cons {s : Stmt} (hs : (stmt pool around s).run es = .ok (first, mid))
    (hstart : t off = some (around.site loops))
    (hwithin : ∀ o n, Within pool around es loops s off o n → t o = some (around.site n))
    (hrest : ∀ o n, Boundary pool ⟨around.after first, mid, ss, off + size first, loops⟩ o n →
      t o = some (around.site n)) {o n : Nat} (hb : Boundary pool ⟨around, es, s :: ss, off, loops⟩ o n) :
    t o = some (around.site n) := by
  cases hb with
  | here => exact hstart
  | later hs' hb =>
    rw [hs] at hs'
    cases hs'
    exact hrest o n hb
  | inner hinner hb => exact hwithin o n ⟨_, hinner, hb⟩

/-- What a `return` leaves does not matter. -/
theorem shapes_return (around : Surroundings) (σ : List Slot) (gap : Option Site) (after : Site) :
    Shapes ⟨around.inFunction, .value :: σ⟩ after (returnCode around) fun t off =>
      Each (Sits t gap) off (returnCode around) := by
  unfold returnCode
  split
  · exact (shapes_piece _ _ _).imp fun t off hbefore _ _ => ⟨⟨_, hbefore, _, σ, rfl, rfl⟩, trivial⟩
  · have hpop : Shaped gap around.inFunction (.value :: σ) σ [.instr .pop] := shaped_effect rfl
    refine (Shapes.append hpop (shapes_piece _ after (.instr .halt))).imp fun t off _ _ h => ?_
    exact ⟨h.1.1, ⟨_, h.2.1, trivial⟩, trivial⟩

/-! ### Forms of statements -/

theorem shapes_function {d : FunctionDecl} {entry : Nat} (hentry : (entry, d.body) ∈ table) :
    Shapes (around.site loops) (around.site loops) (functionCode pool d entry)
      (Serves table around loops (functionCode pool d entry) (Within pool around es loops (.function d))) := by
  have hdefine : Shaped (around.gap loops) around.inFunction (.value :: loopSlots loops) (loopSlots loops)
      [.instr (.defineVar (pool.indexOf (.string d.name)))] := shaped_effect rfl
  refine (Shapes.append (shapes_piece _ _ _) hdefine).imp fun t off hstart _ h ht _ => ?_
  obtain ⟨-, hbehind, heach⟩ := h
  refine ⟨⟨⟨_, hstart, ht _ hentry, _, Slot.covers_refl _, hbehind⟩, heach⟩, ?_⟩
  rintro o n ⟨b, hb, -⟩
  cases hb

section
variable {place : Coordinate} {test : Expr} {yes body : List Stmt} {testCode yesCode bodyCode : Code}

theorem shapes_cond (htest : expr pool test = .ok testCode)
    (hyes : Levels pool table (around.branch testCode) es yes loops yesCode) :
    Shapes (around.site loops) (around.site loops) (testCode ++ .instr (.jumpIfFalse (size yesCode)) :: yesCode)
      (Serves table around loops (testCode ++ .instr (.jumpIfFalse (size yesCode)) :: yesCode)
        (Within pool around es loops (.cond place test yes none))) := by
  refine (shapes_skip (around.gap loops) (shaped_expr test htest _) hyes).imp fun t off _ _ h ht hloop => ?_
  obtain ⟨hyesEach, hinside⟩ := h.1 ht (hloop.branch testCode)
  rw [Surroundings.gap_branch] at hyesEach
  refine ⟨h.2 hyesEach, ?_⟩
  rintro o n ⟨b, hb, ho⟩
  cases hb with
  | yes htest' =>
    cases htest.symm.trans htest'
    exact hinside o n ho

theorem shapes_condElse {no : Stmt} {last : List Nat} {noCode : Code} (htest : expr pool test = .ok testCode)
    (hyes : (stmts pool (around.branch testCode) [] yes).run es = .ok (yesCode, mid))
    (hno : (stmt pool (((around.branch testCode).after yesCode).after [.exit]) no).run mid = .ok (noCode, last))
    (hyesShapes : Levels pool table (around.branch testCode) es yes loops yesCode)
    (hnoShapes : Shapes (around.site loops) (around.site loops) noCode (Serves table
      (((around.branch testCode).after yesCode).after [.exit]) loops noCode
      (Within pool (((around.branch testCode).after yesCode).after [.exit]) mid loops no))) :
    Shapes (around.site loops) (around.site loops)
      (testCode ++ .instr (.jumpIfFalse (size yesCode + 3)) :: (yesCode ++ .instr (.jump (size noCode)) :: noCode))
      (Serves table around loops
        (testCode ++ .instr (.jumpIfFalse (size yesCode + 3)) :: (yesCode ++ .instr (.jump (size noCode)) :: noCode))
        (Within pool around es loops (.cond place test yes (some no)))) := by
  refine (shapes_choice (around.gap loops) (shaped_expr test htest _) hyesShapes hnoShapes).imp
    fun t off _ _ h ht hloop => ?_
  obtain ⟨⟨hserves, hnoStart, hnoStop, hservesNo⟩, heach⟩ := h
  have hlast := ((hloop.branch testCode).after yesCode).after [.exit]
  obtain ⟨hyesEach, hinside⟩ := hserves ht (hloop.branch testCode)
  obtain ⟨hnoEach, hwithin⟩ := hservesNo ht hlast
  simp only [Surroundings.gap_after, Surroundings.gap_branch] at hyesEach hnoEach
  refine ⟨heach hyesEach hnoEach, ?_⟩
  rintro o n ⟨b, hb, ho⟩
  cases hb with
  | yes htest' =>
    cases htest.symm.trans htest'
    exact hinside o n ho
  | no htest' hyes' =>
    cases htest.symm.trans htest'
    cases hyes.symm.trans hyes'
    refine boundary_cons hno hnoStart hwithin (fun o n hb => ?_) ho
    cases hb with
    | here => exact hnoStop

theorem shapes_while (htest : expr pool test = .ok testCode)
    (hbody : Levels pool table ⟨around.inFunction, true, some (size testCode + 3)⟩ es body loops bodyCode)
    (h : loopCode "while" place testCode .jumpIfFalse bodyCode [] = .ok code) :
    Shapes (around.site loops) (around.site loops) code
      (Serves table around loops code (Within pool around es loops (.whileLoop place test body))) := by
  refine (shapes_loop (around.gap loops) size_jumpIfFalse
    (fun t o d hd hnext hlands => ⟨hd, _, _, rfl, hnext, hlands⟩) h (shaped_expr test htest _) shaped_nil hbody).imp
    fun t off hstart _ h ht _ => ?_
  obtain ⟨hserves, heach⟩ := h
  obtain ⟨hbodyEach, hinside⟩ := hserves ht fun n hn => by
    cases hn
    exact ⟨off, hstart, by omega⟩
  refine ⟨heach hbodyEach, ?_⟩
  rintro o n ⟨b, hb, ho⟩
  cases hb with
  | whileBody htest' =>
    cases htest.symm.trans htest'
    exact hinside o n ho

/-- The items and the cursor lie on the stack while the loop runs, and are dropped behind it. -/
theorem shapes_for {name : String} {iterable : Expr} {iterableCode loop : Code}
    (hi : expr pool iterable = .ok iterableCode)
    (hbody : Levels pool table
      ⟨around.inFunction, true, some (3 + (Instruction.defineVar (pool.indexOf (.string name))).size)⟩ es body
      (loops + 1) bodyCode)
    (h : loopCode "for" place [] .forNext (.instr (.defineVar (pool.indexOf (.string name))) :: bodyCode)
      [.instr .pop, .instr .pop] = .ok loop) :
    Shapes (around.site loops) (around.site loops) (iterableCode ++ .instr .iterInit :: loop)
      (Serves table around loops (iterableCode ++ .instr .iterInit :: loop)
        (Within pool around es loops (.forEach place name iterable body))) := by
  have hdefine : Shaped (some (around.site (loops + 1))) around.inFunction (.value :: loopSlots (loops + 1))
      (loopSlots (loops + 1)) [.instr (.defineVar (pool.indexOf (.string name)))] := shaped_effect rfl
  have hpops : Shaped (around.gap loops) around.inFunction (loopSlots (loops + 1)) (loopSlots loops)
      [.instr .pop, .instr .pop] := (shaped_effect rfl).cons (shaped_effect rfl)
  have hitems : Shaped (around.gap loops) around.inFunction (loopSlots loops) (loopSlots (loops + 1))
      (iterableCode ++ [.instr .iterInit]) := (shaped_expr iterable hi _).append (shaped_effect rfl)
  have hloop := shapes_loop (around.gap loops) size_forNext
    (fun t o d hd hnext hlands => ⟨hd, _, rfl, hnext, hlands⟩) h shaped_nil hpops (Shapes.append hdefine hbody)
  have hcode : iterableCode ++ .instr .iterInit :: loop = iterableCode ++ [.instr .iterInit] ++ loop :=
    List.append_cons ..
  have hsize : size (iterableCode ++ [.instr .iterInit]) = size iterableCode + 1 := by
    rw [size_append]
    rfl
  rw [hcode]
  refine (Shapes.append hitems hloop).imp fun t off _ _ h ht _ => ?_
  obtain ⟨hitemsEach, hhead, ⟨hdefineEach, -, hserves⟩, heach⟩ := h
  rw [hsize] at hhead hserves
  obtain ⟨hbodyEach, hinside⟩ := hserves ht fun n hn => by
    cases hn
    exact ⟨_, hhead, by simp only [size_cons, size_nil, Piece.size_instr]; omega⟩
  rw [← hsize] at hbodyEach
  refine ⟨each_append.2 ⟨hitemsEach, heach (each_append.2 ⟨hdefineEach, hbodyEach⟩)⟩, ?_⟩
  rintro o n ⟨b, hb, ho⟩
  cases hb with
  | forBody hi' =>
    cases hi.symm.trans hi'
    exact hinside o n ho

/-- The head of the loop around is where a `continue` leads to. -/
theorem shapes_again {n : Nat} (hn : around.sinceLoop = some n) :
    Shapes (around.site loops) (around.site loops) [.instr (.jump (-(n + 3 : Int)))]
      (Serves table around loops [.instr (.jump (-(n + 3 : Int)))] (Within pool around es loops (.again place))) := by
  refine (shapes_piece _ _ _).imp fun t off hstart _ _ _ hloop => ?_
  obtain ⟨start, hhead, rfl⟩ := hloop n hn
  refine ⟨⟨⟨_, hstart, start, ?_, hhead⟩, trivial⟩, ?_⟩
  · push_cast
    omega
  · rintro o n ⟨b, hb, -⟩
    cases hb

end

mutual

/-- The code of a statement leaves what it finds, two slots for each `for` loop around it. -/
theorem shapes_stmt : ∀ (s : Stmt) {around : Surroundings} {es es' : List Nat} {code : Code} {loops : Nat},
    (stmt pool around s).run es = .ok (code, es') → Supplies table s.declared es →
    Shapes (around.site loops) (around.site loops) code
      (Serves table around loops code (Within pool around es loops s))
  | .expr _ e, _, _, _, code, _, h, _ => by
    obtain ⟨-, hd⟩ := stmt_expr h
    exact (shaped_dropped hd).serves fun _ _ hb => nomatch hb
  | .bind _ name value, _, _, _, code, _, h, _ => by
    obtain ⟨-, valueCode, he, rfl⟩ := stmt_bind h
    exact ((shaped_expr value he _).append (shaped_effect rfl)).serves fun _ _ hb => nomatch hb
  | .function d, _, _, _, code, _, h, hsupplies => by
    obtain ⟨-, entry, rfl, rfl⟩ := stmt_function h
    exact shapes_function hsupplies.1
  | .cond _ test yes none, _, _, _, code, _, h, hsupplies => by
    obtain ⟨testCode, yesCode, htest, hyes, -, rfl⟩ := stmt_cond_none h
    rw [Stmt.declared_cond, Stmt.declaredElse_none, List.append_nil] at hsupplies
    exact shapes_cond htest (shapes_stmts yes hyes hsupplies)
  | .cond _ test yes (some no), _, _, _, code, _, h, hsupplies => by
    obtain ⟨testCode, yesCode, mid, noCode, htest, hyes, hno, -, -, rfl⟩ := stmt_cond_some h
    rw [Stmt.declared_cond, Stmt.declaredElse_some, supplies_append, ← stmts_entries yes hyes] at hsupplies
    exact shapes_condElse htest hyes hno (shapes_stmts yes hyes hsupplies.1) (shapes_stmt no hno hsupplies.2)
  | .whileLoop place test body, _, _, _, code, _, h, hsupplies => by
    obtain ⟨testCode, bodyCode, htest, hbody, hl⟩ := stmt_while h
    rw [Stmt.declared_while] at hsupplies
    exact shapes_while htest (shapes_stmts body hbody hsupplies) hl
  | .forEach place name iterable body, _, _, _, code, _, h, hsupplies => by
    obtain ⟨iterableCode, bodyCode, loop, hi, hbody, hl, rfl⟩ := stmt_for h
    rw [Stmt.declared_for] at hsupplies
    exact shapes_for hi (shapes_stmts body hbody hsupplies) hl
  | .block _ body, around, es, _, code, loops, h, hsupplies => by
    rw [Stmt.declared_block] at hsupplies
    refine (shapes_stmts body (stmt_block h) hsupplies).imp fun t off _ _ hserves ht hloop => ?_
    obtain ⟨heach, hinside⟩ := hserves ht hloop
    refine ⟨heach, ?_⟩
    rintro o n ⟨b, hb, ho⟩
    cases hb
    exact hinside o n ho
  | .personality .., _, _, _, code, _, h, _ => by
    obtain ⟨-, rfl, -⟩ := stmt_personality h
    exact shaped_nil.serves fun _ _ hb => nomatch hb
  | .giveBack _ none, around, _, _, code, _, h, _ => by
    obtain ⟨-, rfl⟩ := stmt_giveBack_none h
    exact ((Shapes.append (shaped_effect rfl) (shapes_return around _ _ _)).imp
      fun _ _ _ _ h => each_append.2 ⟨h.1, h.2.2⟩).serves fun _ _ hb => nomatch hb
  | .giveBack _ (some e), around, _, _, code, _, h, _ => by
    obtain ⟨-, value, he, rfl⟩ := stmt_giveBack_some h
    exact ((Shapes.append (shaped_expr e he _) (shapes_return around _ _ _)).imp
      fun _ _ _ _ h => each_append.2 ⟨h.1, h.2.2⟩).serves fun _ _ hb => nomatch hb
  | .leave _, _, _, _, code, _, h, _ => by
    obtain ⟨-, rfl, hsome⟩ := stmt_leave h
    exact ((shapes_piece _ _ _).imp fun t off hstart _ _ => ⟨⟨_, if_pos hsome, hstart⟩, trivial⟩).serves
      fun _ _ hb => nomatch hb
  | .again _, _, _, _, code, _, h, _ => by
    obtain ⟨-, n, hn, -, rfl⟩ := stmt_again h
    exact shapes_again hn
termination_by structural s => s

theorem shapes_stmts : ∀ (ss : List Stmt) {around : Surroundings} {es es' : List Nat} {code : Code} {loops : Nat},
    (stmts pool around [] ss).run es = .ok (code, es') → Supplies table (Stmt.declaredIn ss) es →
    Levels pool table around es ss loops code
  | [], _, _, _, code, _, h, _ => by
    obtain ⟨-, rfl⟩ := stmts_nil h
    refine (shapes_nil _).imp fun t off hstart _ _ _ _ => ⟨trivial, fun o n hb => ?_⟩
    cases hb with
    | here => exact hstart
  | s :: ss, around, es, _, code, loops, h, hsupplies => by
    obtain ⟨first, mid, rest, hs, hss, rfl⟩ := stmts_cons h
    rw [Stmt.declaredIn_cons, supplies_append, ← stmt_entries s hs] at hsupplies
    have hrestShapes : Levels pool table (around.after first) mid ss loops rest := shapes_stmts ss hss hsupplies.2
    refine (Shapes.append (shapes_stmt s hs hsupplies.1) hrestShapes).imp fun t off hstart _ h ht hloop => ?_
    obtain ⟨heach, hwithin⟩ := h.1 ht hloop
    obtain ⟨heachRest, hrest⟩ := h.2.2 ht (hloop.after first)
    rw [Surroundings.gap_after] at heachRest
    exact ⟨each_append.2 ⟨heach, heachRest⟩, fun o n hb => boundary_cons hs hstart hwithin hrest hb⟩
termination_by structural ss => ss

end

end

end Persona.Compilation
