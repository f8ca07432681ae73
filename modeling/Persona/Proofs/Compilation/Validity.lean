import Persona.Proofs.Bytecode.RoundTrip
import Persona.Proofs.Bytecode.Validity
import Persona.Proofs.Compilation.Layout
import Persona.Toolchain

/-! Compiled programs are valid.

Code is *sound* where all its boundaries are marked if its operands lead to constants
of the right kind and its jumps and entries to marks. A jump leads to a boundary of the
construct it was made for, so that the code of every construct is sound wherever it
stands; the marks of a whole program are the starts of its instructions. -/
namespace Persona

namespace Compilation

/-- An instruction that is right where it stands; `gaps` says whether gaps may be left. -/
def Sound (pool : Pool) (m : Nat → Prop) (gaps : Prop) (o : Nat) : Piece → Prop
  | .instr i => i.Encodable ∧ i.Fits pool.constants m ∧ i.Lands m o
  | .exit => gaps

/-- Code that is right wherever its boundaries are marked. -/
def SoundCode (pool : Pool) (m : Nat → Prop) (gaps : Prop) (code : Code) : Prop :=
  ∀ off, Marked m off code → Each (Sound pool m gaps) off code

/-! ### Composition -/

section
variable {pool : Pool} {m : Nat → Prop} {gaps : Prop}

theorem soundCode_nil : SoundCode pool m gaps [] := fun _ _ => trivial

theorem SoundCode.append {xs ys : Code} (hx : SoundCode pool m gaps xs)
    (hy : SoundCode pool m gaps ys) : SoundCode pool m gaps (xs ++ ys) := by
  intro off hmark
  obtain ⟨hmx, hmy⟩ := marked_append.1 hmark
  exact each_append.2 ⟨hx off hmx, hy _ hmy⟩

theorem SoundCode.flatten {codes : List Code} (h : ∀ c ∈ codes, SoundCode pool m gaps c) :
    SoundCode pool m gaps codes.flatten := by
  induction codes with
  | nil => exact soundCode_nil
  | cons c codes ih =>
    rw [List.flatten_cons]
    exact (h c (List.mem_cons_self ..)).append (ih fun d hd => h d (List.mem_cons_of_mem _ hd))

/-- An instruction that is no jump, in front of other code. -/
theorem SoundCode.cons {i : Instruction} {rest : Code} (hrest : SoundCode pool m gaps rest)
    (hencodable : i.Encodable) (hfits : i.Fits pool.constants m) (hjump : i.jumpDistance? = none) :
    SoundCode pool m gaps (.instr i :: rest) := by
  intro off hmark
  refine ⟨⟨hencodable, hfits, ?_⟩, hrest _ hmark.2⟩
  intro d hd
  rw [hjump] at hd
  cases hd

/-- A jump to a mark. -/
theorem sound_jump {i : Instruction} {d : Int} {o t : Nat} (hi : i.jumpDistance? = some d)
    (hencodable : i.Encodable) (hfits : i.Fits pool.constants m) (ht : m t)
    (htarget : ((o + 3 : Nat) : Int) + d = t) : Sound pool m gaps o (.instr i) := by
  refine ⟨hencodable, hfits, ?_⟩
  intro d' hd'
  rw [hi] at hd'
  cases hd'
  exact ⟨t, ht, htarget⟩

/-! ### Operands -/

theorem isName_indexOf {s : String} (h : Constant.string s ∈ pool.constants) :
    IsName pool.constants (pool.indexOf (.string s)) :=
  ⟨s, Pool.getElem?_indexOf h⟩

theorem isNumber_indexOf {x : Float} (h : Constant.ofFloat x ∈ pool.constants) :
    IsNumber pool.constants (pool.indexOf (.ofFloat x)) :=
  ⟨x.toBits, Pool.getElem?_indexOf h⟩

theorem indexOf_lt_word (hpool : pool.constants.length < 2 ^ 64) {c : Constant}
    (h : c ∈ pool.constants) : pool.indexOf c < 2 ^ 64 := by
  have := Pool.indexOf_lt h
  omega

/-! ### Segments -/

theorem soundCode_segments {make : Nat → Instruction} {values : List Code}
    (hvalues : ∀ v ∈ values, SoundCode pool m gaps v)
    (hmake : ∀ n, n ≤ segmentLength →
      (make n).Encodable ∧ (make n).Fits pool.constants m ∧ (make n).jumpDistance? = none)
    (first : Bool) (done : Nat) (hdone : done ≤ segmentLength) :
    SoundCode pool m gaps (segments make first done values) := by
  have hextend : ∀ first : Bool, SoundCode pool m gaps (if first then [] else [.instr .extend]) := by
    intro first
    cases first with
    | true => exact soundCode_nil
    | false => exact soundCode_nil.cons trivial trivial rfl
  induction values generalizing first done with
  | nil =>
    obtain ⟨he, hf, hj⟩ := hmake done hdone
    unfold segments
    split
    · exact soundCode_nil
    · exact (hextend first).cons he hf hj
  | cons v values ih =>
    have hv := hvalues v (List.mem_cons_self ..)
    have hrest := ih fun w hw => hvalues w (List.mem_cons_of_mem _ hw)
    unfold segments
    split
    · obtain ⟨he, hf, hj⟩ := hmake done hdone
      exact (((hextend first).cons he hf hj).append hv).append (hrest false 1 (by decide))
    · exact hv.append (hrest first (done + 1) (by omega))

/-! ### Expressions -/

theorem soundCode_literal (hpool : pool.constants.length < 2 ^ 64) {l : Literal}
    (h : pool.CoversExpr (.literal l)) : SoundCode pool m gaps (literalCode pool l) := by
  cases l with
  | number x => exact soundCode_nil.cons (indexOf_lt_word hpool h) (Pool.indexOf_lt h) rfl
  | string s => exact soundCode_nil.cons (indexOf_lt_word hpool h) (Pool.indexOf_lt h) rfl
  | bool b =>
    cases b with
    | true => exact soundCode_nil.cons trivial trivial rfl
    | false => exact soundCode_nil.cons trivial trivial rfl
  | null => exact soundCode_nil.cons trivial trivial rfl

theorem soundCode_name (hpool : pool.constants.length < 2 ^ 64) {name : String}
    (h : pool.isFixed name = false → Constant.string name ∈ pool.constants) :
    SoundCode pool m gaps (nameCode pool name) := by
  unfold nameCode
  cases hb : pool.builtin? name with
  | some b => exact soundCode_nil.cons trivial trivial rfl
  | none =>
    have hmem := h (by rw [Pool.isFixed, hb]; rfl)
    exact soundCode_nil.cons (indexOf_lt_word hpool hmem) (isName_indexOf hmem) rfl

theorem soundCode_and {left right : Code} (hl : SoundCode pool m gaps left)
    (hr : SoundCode pool m gaps right) (hfits : Instruction.fitsJump (size right + 3) = true) :
    SoundCode pool m gaps (left ++ .instr (.jumpIfFalse (size right + 3)) ::
      (right ++ [.instr (.jump 1), .instr .pushFalse])) := by
  intro off hmark
  obtain ⟨hml, -, hmark⟩ := marked_append.1 hmark
  obtain ⟨hmr, -, hmfalse, hmend⟩ := marked_append.1 hmark
  refine each_append.2 ⟨hl off hml, ?_, each_append.2 ⟨hr _ hmr, ?_, ⟨trivial, trivial, ?_⟩, trivial⟩⟩
  · refine sound_jump rfl hfits trivial hmfalse ?_
    simp only [Piece.size_instr, size_jumpIfFalse, size_jump]
    push_cast
    omega
  · refine sound_jump rfl rfl trivial hmend ?_
    rfl
  · intro d hd
    cases hd

theorem soundCode_or {left right : Code} (hl : SoundCode pool m gaps left)
    (hr : SoundCode pool m gaps right) (hfits : Instruction.fitsJump (size right) = true) :
    SoundCode pool m gaps (left ++ .instr (.jumpIfFalse 4) :: .instr .pushTrue ::
      .instr (.jump (size right)) :: right) := by
  intro off hmark
  obtain ⟨hml, -, -, -, hmr⟩ := marked_append.1 hmark
  refine each_append.2 ⟨hl off hml, ?_, ⟨trivial, trivial, ?_⟩, ?_, hr _ hmr⟩
  · refine sound_jump rfl rfl trivial hmr.start ?_
    rfl
  · intro d hd
    cases hd
  · refine sound_jump rfl hfits trivial hmr.stop ?_
    push_cast
    rfl

theorem soundCode_call {argc : Nat} (hmax : argc ≤ maxCount) (drop : Bool) : SoundCode pool m gaps (callCode argc drop) := by
  have hle : argc ≤ 255 := hmax
  have hpop : SoundCode pool m gaps [.instr .pop] := soundCode_nil.cons trivial trivial rfl
  unfold callCode
  split
  · refine hpop.cons ⟨hle, ?_⟩ trivial rfl
    intro h
    cases h
  · next hshort =>
    refine soundCode_nil.cons ⟨hle, ?_⟩ trivial rfl
    rintro rfl
    simpa using hshort

/-- The instructions that make a segment into a value. -/
theorem make_ok {make : Nat → Instruction} (h : make = .makeArray ∨ make = .makeMap) (n : Nat)
    (hn : n ≤ segmentLength) : (make n).Encodable ∧ (make n).Fits pool.constants m ∧
      (make n).jumpDistance? = none := by
  have hword : n < 2 ^ 64 := by
    have : segmentLength = 128 := rfl
    omega
  rcases h with rfl | rfl
  · exact ⟨hword, trivial, rfl⟩
  · exact ⟨hword, trivial, rfl⟩

mutual

theorem soundCode_expr (hpool : pool.constants.length < 2 ^ 64) : ∀ (e : Expr) {code : Code},
    pool.CoversExpr e → expr pool e = .ok code → SoundCode pool m gaps code
  | .literal l, code, hc, h => by
    cases h
    exact soundCode_literal hpool hc
  | .identifier i, code, hc, h => by
    cases h
    exact soundCode_name hpool hc
  | .binary op l r, code, hc, h => by
    by_cases hand : op = .and
    · subst hand
      obtain ⟨left, right, hl, hr, hfits, rfl⟩ := expr_and h
      exact soundCode_and (soundCode_expr hpool l hc.1 hl) (soundCode_expr hpool r hc.2 hr) hfits
    by_cases hor : op = .or
    · subst hor
      obtain ⟨left, right, hl, hr, hfits, rfl⟩ := expr_or h
      exact soundCode_or (soundCode_expr hpool l hc.1 hl) (soundCode_expr hpool r hc.2 hr) hfits
    obtain ⟨left, right, hl, hr, rfl⟩ := expr_binary hand hor h
    exact (soundCode_expr hpool l hc.1 hl).append
      ((soundCode_expr hpool r hc.2 hr).append (soundCode_nil.cons trivial trivial rfl))
  | .unary op e, code, hc, h => by
    obtain ⟨operand, he, rfl⟩ := expr_unary h
    exact (soundCode_expr hpool e hc he).append (soundCode_nil.cons trivial trivial rfl)
  | .assign target value, code, hc, h => by
    obtain ⟨valueCode, he, rfl⟩ := expr_assign h
    exact (soundCode_expr hpool value hc.2 he).append
      (soundCode_nil.cons (indexOf_lt_word hpool hc.1.1) (isName_indexOf hc.1.1) rfl)
  | .call place callee arguments, code, hc, h => by
    obtain ⟨hmax, function, values, hf, hvs, rfl⟩ := expr_call h
    exact (soundCode_expr hpool callee hc.1 hf).append
      ((SoundCode.flatten (soundCode_exprs hpool arguments hc.2 hvs)).append
        (soundCode_call hmax false))
  | .array elements, code, hc, h => by
    obtain ⟨values, hvs, rfl⟩ := expr_array h
    exact soundCode_segments (soundCode_exprs hpool elements hc hvs) (make_ok (.inl rfl)) true 0
      (Nat.zero_le _)
  | .map es, code, hc, h => by
    obtain ⟨values, hvs, rfl⟩ := expr_map h
    exact soundCode_segments (soundCode_entries hpool es hc hvs) (make_ok (.inr rfl)) true 0
      (Nat.zero_le _)
  | .index object key, code, hc, h => by
    obtain ⟨o, k, ho, hk, rfl⟩ := expr_index h
    exact (soundCode_expr hpool object hc.1 ho).append
      ((soundCode_expr hpool key hc.2 hk).append (soundCode_nil.cons trivial trivial rfl))
termination_by structural e => e

theorem soundCode_exprs (hpool : pool.constants.length < 2 ^ 64) : ∀ (es : List Expr)
    {values : List Code}, pool.CoversExprs es → exprs pool es = .ok values →
      ∀ v ∈ values, SoundCode pool m gaps v
  | [], values, _, h => by
    cases h
    exact fun v hv => absurd hv (List.not_mem_nil)
  | e :: es, values, hc, h => by
    obtain ⟨first, rest, he, hes, rfl⟩ := exprs_cons h
    exact List.forall_mem_cons.2 ⟨soundCode_expr hpool e hc.1 he, soundCode_exprs hpool es hc.2 hes⟩
termination_by structural es => es

theorem soundCode_entries (hpool : pool.constants.length < 2 ^ 64) : ∀ (es : List (String × Expr))
    {values : List Code}, pool.CoversEntries es → entries pool es = .ok values →
      ∀ v ∈ values, SoundCode pool m gaps v
  | [], values, _, h => by
    cases h
    exact fun v hv => absurd hv (List.not_mem_nil)
  | (key, e) :: es, values, hc, h => by
    obtain ⟨first, rest, he, hes, rfl⟩ := entries_cons h
    have hfirst : SoundCode pool m gaps (.instr (.pushConst (pool.indexOf (.string key))) :: first) :=
      (soundCode_expr hpool e hc.2.1 he).cons (indexOf_lt_word hpool hc.1) (Pool.indexOf_lt hc.1) rfl
    exact List.forall_mem_cons.2 ⟨hfirst, soundCode_entries hpool es hc.2.2 hes⟩
termination_by structural es => es

end

theorem soundCode_dropped (hpool : pool.constants.length < 2 ^ 64) {e : Expr} {code : Code}
    (hc : pool.CoversExpr e) (h : dropped pool e = .ok code) : SoundCode pool m gaps code := by
  by_cases hcall : ∃ place callee arguments, e = .call place callee arguments
  · obtain ⟨place, callee, arguments, rfl⟩ := hcall
    obtain ⟨hmax, function, values, hf, hvs, rfl⟩ := dropped_call h
    exact (soundCode_expr hpool callee hc.1 hf).append
      ((SoundCode.flatten (soundCode_exprs hpool arguments hc.2 hvs)).append
        (soundCode_call hmax true))
  · obtain ⟨value, he, rfl⟩ := dropped_other (fun p c as heq => hcall ⟨p, c, as, heq⟩) h
    exact (soundCode_expr hpool e hc he).append (soundCode_nil.cons trivial trivial rfl)

/-! ### Loops -/

/-- The start of the loop around is marked. -/
def LoopMarked (m : Nat → Prop) (around : Surroundings) (off : Nat) : Prop :=
  ∀ n, around.sinceLoop = some n → ∃ start, m start ∧ start + n = off

theorem LoopMarked.after {around : Surroundings} {off : Nat} (h : LoopMarked m around off)
    (code : Code) : LoopMarked m (around.after code) (off + size code) := by
  intro n hn
  obtain ⟨k, hk, rfl⟩ := Option.map_eq_some_iff.1 hn
  obtain ⟨start, hstart, rfl⟩ := h k hk
  exact ⟨start, hstart, by omega⟩

theorem LoopMarked.branch {around : Surroundings} {off : Nat} (h : LoopMarked m around off)
    (test : Code) : LoopMarked m (around.branch test) (off + size test + 3) :=
  (h.after test).after [.exit]

@[simp] theorem isSome_after (around : Surroundings) (code : Code) :
    (around.after code).sinceLoop.isSome = around.sinceLoop.isSome := Option.isSome_map

@[simp] theorem isSome_branch (around : Surroundings) (code : Code) :
    (around.branch code).sinceLoop.isSome = around.sinceLoop.isSome := by
  show ((around.after code).after [.exit]).sinceLoop.isSome = _
  rw [isSome_after, isSome_after]

/-- The second branch of a conditional is as much inside a loop as the first. -/
theorem isSome_otherwise (around : Surroundings) (test yes : Code) :
    (((around.branch test).after yes).after [.exit]).sinceLoop.isSome = around.sinceLoop.isSome := by
  rw [isSome_after, isSome_after, isSome_branch]

/-- Inside of a loop there may be gaps. -/
theorem each_sound_inLoop {code : Code} {off : Nat} (h : Each (Sound pool m gaps) off code) :
    Each (Sound pool m True) off code := by
  refine h.imp fun o p hp => ?_
  cases p with
  | instr i => exact hp
  | exit => trivial

/-- A loop leaves no gaps: those of its body are filled with jumps to its tail. -/
theorem sound_loop {keyword : String} {place : Coordinate} {test body tail code : Code}
    {exit : Int → Instruction} {off : Nat} (hexit : exit = .jumpIfFalse ∨ exit = .forNext)
    (h : loopCode keyword place test exit body tail = .ok code)
    (htest : SoundCode pool m gaps test) (htail : SoundCode pool m gaps tail)
    (hmark : Marked m off code)
    (hbody : Marked m (off + size test + 3) body →
      Each (Sound pool m True) (off + size test + 3) body) :
    Each (Sound pool m gaps) off code := by
  obtain ⟨filled, hfill, hback, hleave, rfl⟩ := loopCode_ok h
  have hsize : ∀ d, (exit d).size = 3 := by
    rcases hexit with rfl | rfl
    · exact size_jumpIfFalse
    · exact size_forNext
  obtain ⟨hmt, -, hmark⟩ := marked_append.1 hmark
  rw [Piece.size_instr, hsize] at hmark
  have hfilled := filled_of_fillExits hfill (off + size test + 3)
  obtain ⟨hmf, -, hmtail⟩ := marked_append.1 hmark
  rw [hfilled.size_eq, Piece.size_instr, size_jump] at hmtail
  have hmb := hfilled.marked.1 hmf
  refine each_append.2 ⟨htest off hmt, ?_, ?_⟩
  · have htarget : ((off + size test + 3 : Nat) : Int) + (size body + 3 + size tail) =
        ((off + size test + 3 + size body + 3 + size tail : Nat) : Int) := by
      push_cast
      omega
    rcases hexit with rfl | rfl
    · exact sound_jump rfl hleave trivial hmtail.stop htarget
    · exact sound_jump rfl hleave trivial hmtail.stop htarget
  rw [Piece.size_instr, hsize]
  refine each_append.2 ⟨?_, ?_, ?_⟩
  · refine hfilled.each (hbody hmb) (fun o i hi => hi) ?_
    intro o d hfits hstop _
    exact sound_jump rfl hfits trivial hmtail.start hstop
  · rw [hfilled.size_eq]
    refine sound_jump rfl hback trivial hmt.start ?_
    push_cast
    omega
  · rw [hfilled.size_eq]
    exact htail _ hmtail

/-! ### Conditionals -/

theorem sound_when {test yes : Code} {off : Nat} (htest : SoundCode pool m gaps test)
    (hfits : Instruction.fitsJump (size yes) = true)
    (hmark : Marked m off (test ++ .instr (.jumpIfFalse (size yes)) :: yes))
    (hyes : Marked m (off + size test + 3) yes → Each (Sound pool m gaps) (off + size test + 3) yes) :
    Each (Sound pool m gaps) off (test ++ .instr (.jumpIfFalse (size yes)) :: yes) := by
  obtain ⟨hmt, -, hmy⟩ := marked_append.1 hmark
  refine each_append.2 ⟨htest off hmt, ?_, hyes hmy⟩
  refine sound_jump rfl hfits trivial hmy.stop ?_
  push_cast
  rfl

theorem sound_either {test yes no : Code} {off : Nat} (htest : SoundCode pool m gaps test)
    (hfits : Instruction.fitsJump (size yes + 3) = true) (hpast : Instruction.fitsJump (size no) = true)
    (hmark : Marked m off (test ++ .instr (.jumpIfFalse (size yes + 3)) :: (yes ++ .instr (.jump (size no)) :: no)))
    (hyes : Marked m (off + size test + 3) yes → Each (Sound pool m gaps) (off + size test + 3) yes)
    (hno : Marked m (off + size test + 3 + size yes + 3) no →
      Each (Sound pool m gaps) (off + size test + 3 + size yes + 3) no) :
    Each (Sound pool m gaps) off
      (test ++ .instr (.jumpIfFalse (size yes + 3)) :: (yes ++ .instr (.jump (size no)) :: no)) := by
  obtain ⟨hmt, -, hmark⟩ := marked_append.1 hmark
  obtain ⟨hmy, -, hmn⟩ := marked_append.1 hmark
  refine each_append.2 ⟨htest off hmt, ?_, each_append.2 ⟨hyes hmy, ?_, hno hmn⟩⟩
  · refine sound_jump rfl hfits trivial hmn.start ?_
    simp only [Piece.size_instr, size_jumpIfFalse, size_jump]
    push_cast
    omega
  · refine sound_jump rfl hpast trivial hmn.stop ?_
    push_cast
    rfl

/-! ### Statements -/

theorem soundCode_return (around : Surroundings) : SoundCode pool m gaps (returnCode around) := by
  have hhalt : SoundCode pool m gaps [.instr .halt] := soundCode_nil.cons trivial trivial rfl
  unfold returnCode
  split
  · exact soundCode_nil.cons trivial trivial rfl
  · exact hhalt.cons trivial trivial rfl

theorem soundCode_define (hpool : pool.constants.length < 2 ^ 64) {name : String}
    (h : pool.Binds name) :
    SoundCode pool m gaps [.instr (.defineVar (pool.indexOf (.string name)))] :=
  soundCode_nil.cons (indexOf_lt_word hpool h.1) (isName_indexOf h.1) rfl

theorem soundCode_function (hpool : pool.constants.length < 2 ^ 64) {d : FunctionDecl} {entry : Nat}
    (hc : pool.CoversStmt (.function d)) (hmax : d.params.length ≤ maxCount) (hentry : m entry)
    (hword : entry < 2 ^ 64) : SoundCode pool m gaps (functionCode pool d entry) := by
  obtain ⟨_, name, params, _, body⟩ := d
  obtain ⟨hname, hparams, -⟩ := hc
  refine (soundCode_define hpool hname).cons ?_ ?_ rfl
  · refine ⟨indexOf_lt_word hpool hname.1, ?_, ?_, hword⟩
    · rw [List.length_map]
      exact hmax
    · rw [List.forall_mem_map]
      exact fun p hp => indexOf_lt_word hpool (hparams p hp).1
  · refine ⟨isName_indexOf hname.1, ?_, hentry⟩
    rw [List.forall_mem_map]
    exact fun p hp => isName_indexOf (hparams p hp).1

variable {t : Table}

mutual

/-- The code of a statement is right where the loop around it is marked. -/
theorem sound_stmt (hpool : pool.constants.length < 2 ^ 64) (ht : ∀ x ∈ t, m x.1 ∧ x.1 < 2 ^ 64) :
    ∀ (s : Stmt) {around : Surroundings} {es es' : List Nat} {code : Code} {off : Nat},
      pool.CoversStmt s → (stmt pool around s).run es = .ok (code, es') →
      Supplies t s.declared es → LoopMarked m around off → Marked m off code →
      Each (Sound pool m (around.sinceLoop.isSome = true)) off code
  | .expr _ e, _, _, _, code, off, hc, h, _, _, hmark => by
    obtain ⟨-, hd⟩ := stmt_expr h
    exact soundCode_dropped hpool hc hd off hmark
  | .bind _ name value, _, _, _, code, off, hc, h, _, _, hmark => by
    obtain ⟨-, valueCode, he, rfl⟩ := stmt_bind h
    exact (soundCode_expr hpool value hc.2 he).append (soundCode_define hpool hc.1) off hmark
  | .function d, _, es, _, code, off, hc, h, hsupplies, _, hmark => by
    obtain ⟨hmax, entry, rfl, rfl⟩ := stmt_function h
    obtain ⟨hentry, hword⟩ := ht _ hsupplies.1
    exact soundCode_function hpool hc hmax hentry hword off hmark
  | .cond _ test yes none, around, es, _, code, off, hc, h, hsupplies, hloop, hmark => by
    obtain ⟨testCode, yesCode, htest, hyes, hfits, rfl⟩ := stmt_cond_none h
    rw [Stmt.declared_cond, Stmt.declaredElse_none, List.append_nil] at hsupplies
    refine sound_when (soundCode_expr hpool test hc.1 htest) hfits hmark fun hmy => ?_
    rw [← isSome_branch around testCode]
    exact sound_stmts hpool ht yes hc.2.1 hyes hsupplies (hloop.branch testCode) hmy
  | .cond _ test yes (some no), around, es, _, code, off, hc, h, hsupplies, hloop, hmark => by
    obtain ⟨testCode, yesCode, mid, noCode, htest, hyes, hno, hfits, hpast, rfl⟩ := stmt_cond_some h
    rw [Stmt.declared_cond, Stmt.declaredElse_some, supplies_append, ← stmts_entries yes hyes] at hsupplies
    have hly := hloop.branch testCode
    refine sound_either (soundCode_expr hpool test hc.1 htest) hfits hpast hmark (fun hmy => ?_) fun hmn => ?_
    · rw [← isSome_branch around testCode]
      exact sound_stmts hpool ht yes hc.2.1 hyes hsupplies.1 hly hmy
    · rw [← isSome_otherwise around testCode yesCode]
      exact sound_stmt hpool ht no hc.2.2 hno hsupplies.2 ((hly.after yesCode).after [.exit]) hmn
  | .whileLoop place test body, around, es, _, code, off, hc, h, hsupplies, hloop, hmark => by
    obtain ⟨testCode, bodyCode, htest, hbody, hl⟩ := stmt_while h
    rw [Stmt.declared_while] at hsupplies
    refine sound_loop (.inl rfl) hl (soundCode_expr hpool test hc.1 htest) soundCode_nil hmark ?_
    intro hmb
    refine each_sound_inLoop (sound_stmts hpool ht body hc.2 hbody hsupplies ?_ hmb)
    intro n hn
    cases hn
    exact ⟨off, hmark.start, by omega⟩
  | .forEach place name iterable body, around, es, _, code, off, hc, h, hsupplies, hloop, hmark => by
    obtain ⟨iterableCode, bodyCode, loop, hi, hbody, hl, rfl⟩ := stmt_for h
    rw [Stmt.declared_for] at hsupplies
    obtain ⟨hmi, -, hml⟩ := marked_append.1 hmark
    have hpops : SoundCode pool m (around.sinceLoop.isSome = true) [.instr .pop, .instr .pop] :=
      SoundCode.cons (soundCode_nil.cons trivial trivial rfl) trivial trivial rfl
    refine each_append.2 ⟨soundCode_expr hpool iterable hc.2.1 hi off hmi,
      ⟨trivial, trivial, fun d hd => by cases hd⟩, ?_⟩
    refine sound_loop (.inr rfl) hl soundCode_nil hpops hml ?_
    intro hmb
    refine ⟨(soundCode_define hpool hc.1 _ ⟨hmb.1, hmb.2.start⟩).1, ?_⟩
    refine each_sound_inLoop (sound_stmts hpool ht body hc.2.2 hbody hsupplies ?_ hmb.2)
    intro n hn
    cases hn
    exact ⟨_, hml.start, by simp only [size_nil, Piece.size_instr]; omega⟩
  | .block _ body, around, es, _, code, off, hc, h, hsupplies, hloop, hmark => by
    rw [Stmt.declared_block] at hsupplies
    have hinner : LoopMarked m { around with inBlock := true } off := hloop
    have hbody := sound_stmts hpool ht body hc (stmt_block h) hsupplies hinner hmark
    exact hbody
  | .personality .., _, _, _, code, off, _, h, _, _, _ => by
    obtain ⟨-, rfl, -⟩ := stmt_personality h
    trivial
  | .giveBack _ none, around, _, _, code, off, _, h, _, _, hmark => by
    obtain ⟨-, rfl⟩ := stmt_giveBack_none h
    have hnull : SoundCode pool m (around.sinceLoop.isSome = true)
        (.instr .pushNull :: returnCode around) :=
      (soundCode_return around).cons trivial trivial rfl
    exact hnull off hmark
  | .giveBack _ (some e), around, _, _, code, off, hc, h, _, _, hmark => by
    obtain ⟨-, value, he, rfl⟩ := stmt_giveBack_some h
    exact (soundCode_expr hpool e hc he).append (soundCode_return around) off hmark
  | .leave _, _, _, _, code, off, _, h, _, _, _ => by
    obtain ⟨-, rfl, hsome⟩ := stmt_leave h
    exact ⟨hsome, trivial⟩
  | .again _, around, _, _, code, off, _, h, _, hloop, _ => by
    obtain ⟨-, n, hn, hfits, rfl⟩ := stmt_again h
    obtain ⟨start, hstart, rfl⟩ := hloop n hn
    refine ⟨sound_jump rfl hfits trivial hstart ?_, trivial⟩
    push_cast
    omega
termination_by structural s => s

theorem sound_stmts (hpool : pool.constants.length < 2 ^ 64) (ht : ∀ x ∈ t, m x.1 ∧ x.1 < 2 ^ 64) :
    ∀ (ss : List Stmt) {around : Surroundings} {es es' : List Nat} {code : Code} {off : Nat},
      pool.CoversStmts ss → (stmts pool around [] ss).run es = .ok (code, es') →
      Supplies t (Stmt.declaredIn ss) es → LoopMarked m around off → Marked m off code →
      Each (Sound pool m (around.sinceLoop.isSome = true)) off code
  | [], _, _, _, code, off, _, h, _, _, _ => by
    obtain ⟨-, rfl⟩ := stmts_nil h
    trivial
  | s :: ss, around, es, _, code, off, hc, h, hsupplies, hloop, hmark => by
    obtain ⟨first, mid, rest, hs, hss, rfl⟩ := stmts_cons h
    rw [Stmt.declaredIn_cons, supplies_append, ← stmt_entries s hs] at hsupplies
    obtain ⟨hmf, hmr⟩ := marked_append.1 hmark
    have hrest := sound_stmts hpool ht ss hc.2 hss hsupplies.2 (hloop.after first) hmr
    rw [isSome_after] at hrest
    exact each_append.2 ⟨sound_stmt hpool ht s hc.1 hs hsupplies.1 hloop hmf, hrest⟩
termination_by structural ss => ss

end

end

/-! ### Programs -/

theorem Laid.entries_lt {pool : Pool} {t : Table} {off : Nat} {codes : List Code} {rest : Table}
    (h : Laid pool t off codes rest) : ∀ x ∈ rest, x.1 ≤ off + size codes.flatten := by
  intro x hx
  obtain ⟨front, whole, back, hcodes, hoff, -⟩ := h.code_at hx
  rw [hcodes, size_append]
  omega

theorem sound_laid {pool : Pool} {m : Nat → Prop} {t : Table}
    (hpool : pool.constants.length < 2 ^ 64) (ht : ∀ x ∈ t, m x.1 ∧ x.1 < 2 ^ 64) {off : Nat}
    {codes : List Code} {rest : Table} (h : Laid pool t off codes rest)
    (hmark : Marked m off codes.flatten) : Each (Sound pool m False) off codes.flatten := by
  induction h with
  | nil => trivial
  | cons hbody _ ih =>
    next off body whole codes rest _ =>
    rw [List.flatten_cons] at hmark ⊢
    obtain ⟨hmb, hmr⟩ := marked_append.1 hmark
    refine each_append.2 ⟨?_, ih hmr⟩
    obtain ⟨es, es', code, hrun, hsupplies, rfl⟩ := hbody.compiled
    obtain ⟨hmc, hmend⟩ := marked_append.1 hmb
    have hnoLoop : LoopMarked m ⟨true, false, none⟩ off := fun n hn => by cases hn
    have hcode := sound_stmts hpool ht _ hbody.covered hrun hsupplies hnoLoop hmc
    have hend : SoundCode pool m False [.instr .pushNull, .instr .ret] :=
      SoundCode.cons (soundCode_nil.cons trivial trivial rfl) trivial trivial rfl
    refine each_append.2 ⟨hcode.imp fun o p hp => ?_, hend _ hmend⟩
    cases p with
    | instr i => exact hp
    | exit => cases hp

theorem covers_personalityBlocks {pool : Pool} {ss : List Stmt} (h : pool.CoversStmts ss) :
    ∀ block ∈ (Program.mk ss).personalityBlocks, ∀ e ∈ block, Constant.ofFloat e.value ∈ pool.constants := by
  induction ss with
  | nil => exact fun block hb => absurd hb (List.not_mem_nil)
  | cons s ss ih =>
    intro block hb
    have hrest := ih h.2
    cases s with
    | personality place entries =>
      rcases List.mem_cons.1 hb with rfl | htail
      · exact h.1
      · exact hrest block htail
    | _ => exact hrest block hb

theorem soundCode_personality {pool : Pool} {m : Nat → Prop} (hpool : pool.constants.length < 2 ^ 64)
    {blocks : List (List TraitEntry)}
    (hc : ∀ block ∈ blocks, ∀ e ∈ block, Constant.ofFloat e.value ∈ pool.constants) {code : Code}
    (h : personalityCode pool blocks = .ok code) : SoundCode pool m False code := by
  induction blocks generalizing code with
  | nil =>
    cases h
    exact soundCode_nil
  | cons block blocks ih =>
    obtain ⟨hmax, rest, hrest, rfl⟩ := personalityCode_cons h
    have hblock := hc block (List.mem_cons_self ..)
    refine (ih (fun b hb => hc b (List.mem_cons_of_mem _ hb)) hrest).cons ⟨?_, ?_⟩ ?_ rfl
    · rw [List.length_map]
      exact hmax
    · rw [List.forall_mem_map]
      exact fun e he => indexOf_lt_word hpool (hblock e he)
    · show ∀ e ∈ block.map fun e => (e.key, pool.indexOf (.ofFloat e.value)),
        IsNumber pool.constants e.2
      rw [List.forall_mem_map]
      exact fun e he => isNumber_indexOf (hblock e he)

/-- A body begins with an instruction. -/
theorem isStart_body {code front back : Code} {pool : Pool} {t : Table} {body : List Stmt}
    {whole : Code} (hbody : BodyCode pool t body whole) (h : code = front ++ (whole ++ back)) :
    IsStart code (size front) := by
  obtain ⟨_, _, main, -, -, rfl⟩ := hbody.compiled
  cases main with
  | nil => exact ⟨front, _, _, h, rfl⟩
  | cons p main => exact ⟨front, _, _, h, rfl⟩

namespace Parts

variable {p : Program}

/-- The entries of bodies are starts. -/
theorem isStart_entry (x : Parts p) : ∀ y ∈ x.table, IsStart x.whole y.1 ∧ y.1 ≤ x.entry := by
  intro y hy
  obtain ⟨front, whole, back, hcodes, hoff, hbody⟩ := x.laid.code_at hy
  have hle := x.laid.entries_lt y hy
  rw [Nat.zero_add] at hoff hle
  refine ⟨?_, hle⟩
  have hwhole : x.whole = front ++ (whole ++ (back ++ (x.setup ++ (x.main ++ [.instr .halt])))) := by
    rw [Parts.whole, hcodes, List.append_assoc, List.append_assoc]
  rw [← hoff]
  exact isStart_body hbody hwhole

/-- All starts of the code are marked, and so is its end, were anything behind it. -/
theorem marked (x : Parts p) :
    Marked (IsStart x.whole) 0 (x.codes.flatten ++ (x.setup ++ x.main)) := by
  have hwhole : x.whole = [] ++ (x.codes.flatten ++ (x.setup ++ x.main) ++ .instr .halt :: []) := by
    rw [Parts.whole]
    simp
  exact marked_of_part hwhole

/-- A program that compiles has sound code without gaps. -/
theorem sound (x : Parts p) (hpool : (Pool.ofProgram p).constants.length < 2 ^ 64)
    (hentry : x.entry < 2 ^ 64) :
    Each (Sound (Pool.ofProgram p) (IsStart x.whole) False) 0 x.whole := by
  have ht : ∀ y ∈ x.table, IsStart x.whole y.1 ∧ y.1 < 2 ^ 64 := by
    intro y hy
    obtain ⟨hstart, hle⟩ := x.isStart_entry y hy
    exact ⟨hstart, by omega⟩
  have hcovers := Pool.covers_ofProgram p
  obtain ⟨hmc, hmark⟩ := marked_append.1 x.marked
  obtain ⟨hms, hmm⟩ := marked_append.1 hmark
  have hnoLoop : LoopMarked (IsStart x.whole) ⟨false, false, none⟩
      (0 + size x.codes.flatten + size x.setup) := fun n hn => by cases hn
  have hmain := sound_stmts hpool ht _ hcovers x.main_ok x.supplies hnoLoop hmm
  refine each_append.2 ⟨sound_laid hpool ht x.laid hmc, each_append.2 ⟨?_, each_append.2 ⟨?_, ?_⟩⟩⟩
  · exact soundCode_personality hpool (covers_personalityBlocks hcovers) x.setup_ok _ hms
  · refine hmain.imp fun o p hp => ?_
    cases p with
    | instr i => exact hp
    | exit => cases hp
  · exact ⟨⟨trivial, trivial, fun d hd => by cases hd⟩, trivial⟩

end Parts

/-! ### Bytes -/

/-- A code without gaps is a list of instructions. -/
theorem exists_instrs {q : Nat → Piece → Prop} (hexit : ∀ o, ¬ q o .exit) {off : Nat} {code : Code}
    (h : Each q off code) : ∃ is : List Instruction, code = is.map .instr := by
  induction code generalizing off with
  | nil => exact ⟨[], rfl⟩
  | cons p code ih =>
    obtain ⟨is, rfl⟩ := ih h.2
    cases p with
    | instr i => exact ⟨i :: is, rfl⟩
    | exit => exact absurd h.1 (hexit off)

theorem instructions_instrs (is : List Instruction) : instructions (is.map .instr) = is := by
  induction is with
  | nil => rfl
  | cons i is ih =>
    show i :: instructions (is.map .instr) = i :: is
    rw [ih]

theorem each_located {q : Nat → Piece → Prop} {off : Nat} {is : List Instruction}
    (h : Each q off (is.map .instr)) : ∀ x ∈ Instruction.located off is, q x.1 (.instr x.2) := by
  induction is generalizing off with
  | nil => exact fun x hx => absurd hx (List.not_mem_nil)
  | cons i is ih => exact List.forall_mem_cons.2 ⟨h.1, ih h.2⟩

/-- The pieces of a list of instructions begin where its instructions do. -/
theorem starts_of_isStart {is : List Instruction} {o : Nat} (h : IsStart (is.map .instr) o)
    (off : Nat) : Starts (Instruction.located off is) (off + o) := by
  obtain ⟨front, p, back, hcode, rfl⟩ := h
  induction is generalizing front off with
  | nil => simp at hcode
  | cons i is ih =>
    cases front with
    | nil => exact List.mem_cons_self ..
    | cons q front =>
      obtain ⟨hq, hrest⟩ := List.cons.inj hcode
      subst hq
      have := ih (off + i.size) front hrest
      rw [size_cons, Piece.size_instr, ← Nat.add_assoc]
      exact List.mem_cons_of_mem _ this

/-- The entry of a compiled program is where its personality blocks or statements begin. -/
theorem Parts.isStart_run {p : Program} (x : Parts p) : IsStart x.whole x.entry := by
  have hmark := (marked_append.1 x.marked).2.start
  rwa [Nat.zero_add] at hmark

theorem fits_mono {i : Instruction} {constants : List Constant} {m m' : Nat → Prop}
    (hm : ∀ o, m o → m' o) (h : i.Fits constants m) : i.Fits constants m' := by
  cases i with
  | makeFunction name params entry => exact ⟨h.1, h.2.1, hm _ h.2.2⟩
  | _ => exact h

theorem lands_mono {i : Instruction} {offset : Nat} {m m' : Nat → Prop}
    (hm : ∀ o, m o → m' o) (h : i.Lands m offset) : i.Lands m' offset := by
  intro d hd
  obtain ⟨t, ht, htarget⟩ := h d hd
  exact ⟨t, hm t ht, htarget⟩

/-- The code of a compiled program is a list of instructions, all of which have bytes. -/
theorem Parts.exists_encodable {p : Program} (x : Parts p)
    (hpool : (Pool.ofProgram p).constants.length < 2 ^ 64) (hentry : x.entry < 2 ^ 64) :
    ∃ is : List Instruction, x.whole = is.map .instr ∧ (∀ i ∈ is, i.Encodable) ∧
      x.bytecode.code = is.flatMap Instruction.encode := by
  have hsound := x.sound hpool hentry
  obtain ⟨is, his⟩ := exists_instrs (fun o h => h) hsound
  rw [his] at hsound
  refine ⟨is, his, ?_, ?_⟩
  · intro i hi
    obtain ⟨o, ho⟩ := Instruction.exists_located hi 0
    exact (each_located hsound _ ho).1
  · rw [Parts.bytecode, his, instructions_instrs]

/-- The compiled program is valid: its code is the stream of the compiled instructions. -/
theorem Parts.valid {p : Program} (x : Parts p)
    (hpool : (Pool.ofProgram p).constants.length < 2 ^ 64) (hentry : x.entry < 2 ^ 64) :
    x.bytecode.Valid (Instruction.located 0 (instructions x.whole)) := by
  have hsound := x.sound hpool hentry
  obtain ⟨is, his, hencodable, hcode⟩ := x.exists_encodable hpool hentry
  have hstarts : ∀ o, IsStart x.whole o → Starts (Instruction.located 0 is) o := by
    intro o ho
    rw [his] at ho
    have := starts_of_isStart ho 0
    rwa [Nat.zero_add] at this
  have hall : ∀ y ∈ Instruction.located 0 is,
      Sound (Pool.ofProgram p) (IsStart x.whole) False y.1 (.instr y.2) := by
    apply each_located
    rwa [← his]
  rw [his, instructions_instrs]
  refine ⟨?_, hstarts _ x.isStart_run, ?_, ?_⟩
  · rw [hcode]
    exact Instruction.decodes_located hencodable 0
  · exact fun y hy => fits_mono hstarts (hall y hy).2.1
  · exact fun y hy => lands_mono hstarts (hall y hy).2.2

end Compilation

/-- What compiles to something of a size that words can count is valid. -/
theorem valid_of_compile {p : Program} {b : Bytecode} (h : compile p = .ok b)
    (hconstants : b.constants.length < 2 ^ 64) (hentry : b.entry < 2 ^ 64) : ∃ is, b.Valid is := by
  obtain ⟨x, rfl⟩ := Compilation.exists_parts h
  exact ⟨_, x.valid hconstants hentry⟩

theorem load_image_of_compile {p : Program} {b : Bytecode} (h : compile p = .ok b)
    (hb : b.Addressable) : Bytecode.load b.image = .ok b := by
  have hentry := hb.entry
  obtain ⟨is, hvalid⟩ := valid_of_compile h hb.constants (by omega)
  exact Bytecode.load_of_valid hb hvalid

theorem Settings.compile_of_error {s : Settings} {source : String} {e : Failure}
    (h : s.parse source = .error e) (verify : Bool) :
    ({ s with verifyImages := verify }).compile source = .error e := by
  have hparse : ({ s with verifyImages := verify }).parse source = .error e := h
  rw [compile, hparse]
  rfl

theorem Settings.compile_of_ok {s : Settings} {source : String} {p : Program}
    (h : s.parse source = .ok p) (verify : Bool) :
    ({ s with verifyImages := verify }).compile source = (do
      let image ← imageOf p
      if verify then discard (load image)
      return image) := by
  have hparse : ({ s with verifyImages := verify }).parse source = .ok p := h
  rw [compile, hparse]
  rfl

/-- What is compiled is valid: its code is a stream of instructions, the entry, the entries of
functions and the targets of jumps are starts of this stream, and the operands lead to
constants of the right kind. So it is read back from its image, and to verify images changes
nothing. -/
theorem compile_valid :
    (∀ p b, compile p = .ok b → b.constants.length < 2 ^ 64 → b.entry < 2 ^ 64 →
      (∃ is, b.Valid is) ∧ b.validate = .ok ()) ∧
    (∀ p b, compile p = .ok b → b.Addressable → Bytecode.load b.image = .ok b) ∧
    ∀ (s : Settings) (source : String),
      (∀ p b, s.parse source = .ok p → compile p = .ok b → b.Addressable) →
      ({ s with verifyImages := true }).compile source =
        ({ s with verifyImages := false }).compile source := by
  refine ⟨?_, fun p b h hb => load_image_of_compile h hb, ?_⟩
  · intro p b h hconstants hentry
    have hvalid := valid_of_compile h hconstants hentry
    exact ⟨hvalid, Bytecode.validate_iff.2 hvalid⟩
  · intro s source hsize
    cases hp : s.parse source with
    | error e => rw [Settings.compile_of_error hp, Settings.compile_of_error hp]
    | ok p =>
      rw [Settings.compile_of_ok hp, Settings.compile_of_ok hp]
      cases hc : compile p with
      | error e =>
        have himage : Settings.imageOf p = .error (.compilation e) := by
          rw [Settings.imageOf, hc]
          rfl
        rw [himage]
        rfl
      | ok b =>
        have himage : Settings.imageOf p = .ok b.image := by
          rw [Settings.imageOf, hc]
          rfl
        have hload : Settings.load b.image = .ok b := by
          rw [Settings.load, load_image_of_compile hc (hsize p b hp hc)]
          rfl
        rw [himage]
        show (do discard (Settings.load b.image); return b.image) = Except.ok b.image
        rw [hload]
        rfl

/-- A function, and a loop that calls it and is left. -/
def callLoop : Program :=
  ⟨[.function ⟨.start, "f", [⟨"a", none⟩], none, [.giveBack .start (some (.identifier ⟨"a", .start⟩))]⟩,
    .whileLoop .start (.literal (.bool true))
      [.expr .start (.call .start (.identifier ⟨"f", .start⟩) [.literal .null]), .leave .start]]⟩

/-- Its jumps are the exit of the loop, the `break` and the way back. -/
def callLoopCode : Bytecode :=
  ⟨[.string "f", .string "a"], [129, 10, 2, 10, 18, 0, 1, 1, 0, 192, 3, 12, 9, 0, 128, 2, 57, 11,
    3, 0, 11, 243, 255, 0], 4⟩

theorem compile_callLoop : compile callLoop = .ok callLoopCode := by decide +kernel

theorem addressable_callLoopCode : callLoopCode.Addressable := by
  refine ⟨by decide, ?_, by decide, by decide⟩
  intro s hs
  rcases List.mem_cons.1 hs with h | h
  · cases h
    decide
  · cases List.mem_singleton.1 h
    decide

/-- The source `null` and the program that it is. -/
theorem parse_null : ({} : Settings).parse "null" = .ok ⟨[.expr .start (.literal .null)]⟩ := by
  have htokens : tokenize "null" = .ok [⟨.keyword .nullKey, .start, ⟨1, 5, 4⟩⟩] := by
    have hend : Cursor.tokens ⟨⟨1, 5, 4⟩, []⟩ #[⟨.keyword .nullKey, .start, ⟨1, 5, 4⟩⟩] =
        (#[⟨.keyword .nullKey, .start, ⟨1, 5, 4⟩⟩], none) := by
      rw [Cursor.tokens]
      rfl
    have hstart : (Cursor.ofString "null").tokens #[] =
        (#[⟨.keyword .nullKey, .start, ⟨1, 5, 4⟩⟩], none) := by
      rw [Cursor.tokens]
      exact hend
    rw [tokenize, hstart]
  have hparse : parse 128 [⟨.keyword .nullKey, .start, ⟨1, 5, 4⟩⟩] =
      .ok ⟨[.expr .start (.literal .null)]⟩ := by
    unfold parse Parser.program Parser.statements Parser.statement Parser.expression Parser.unary
    rfl
  rw [Settings.parse, htokens]
  show (Persona.parse 128 _).mapError Failure.syntactic = _
  rw [hparse]
  rfl

theorem compile_valid_callLoop :
    compile callLoop = .ok callLoopCode ∧ callLoopCode.validate = .ok () ∧
      Bytecode.load callLoopCode.image = .ok callLoopCode ∧
      Settings.compile { verifyImages := true } "null" =
        Settings.compile { verifyImages := false } "null" := by
  refine ⟨compile_callLoop, ?_, ?_, ?_⟩
  · exact (compile_valid.1 _ _ compile_callLoop (by decide) (by decide)).2
  · exact compile_valid.2.1 _ _ compile_callLoop addressable_callLoopCode
  · refine compile_valid.2.2 {} "null" ?_
    intro p b hp hc
    rw [parse_null] at hp
    cases hp
    have hnull : compile ⟨[.expr .start (.literal .null)]⟩ = .ok ⟨[], [2, 5, 0], 0⟩ := by
      decide +kernel
    rw [hnull] at hc
    cases hc
    exact ⟨by decide, fun s hs => absurd hs (List.not_mem_nil), by decide, by decide⟩

end Persona
