import Persona.Proofs.Compilation.Coverage
import Persona.Proofs.Compilation.Shape

/-! Where code stands.

The pieces of a code stand one behind the other from an offset on. This module says
what that means for the pieces of a whole, for a loop whose gaps are filled, and for
the bodies of functions, which are put in front of everything else. -/
namespace Persona

/-! ### Declarations -/

namespace Stmt

def function? : Stmt → Option FunctionDecl
  | function d => some d
  | _ => none

/-- The functions that a statement declares in the call that it runs in. -/
def declared (s : Stmt) : List FunctionDecl := s.own.filterMap function?

def declaredIn (ss : List Stmt) : List FunctionDecl := (ownList ss).filterMap function?

def declaredElse (no : Option Stmt) : List FunctionDecl := (ownElse no).filterMap function?

@[simp] theorem declared_function (d : FunctionDecl) : declared (function d) = [d] := rfl

@[simp] theorem declared_cond (place : Coordinate) (test : Expr) (yes : List Stmt) (no : Option Stmt) :
    declared (cond place test yes no) = declaredIn yes ++ declaredElse no := by
  rw [declared, own, List.filterMap_cons_none rfl, List.filterMap_append]
  rfl

@[simp] theorem declared_while (place : Coordinate) (test : Expr) (body : List Stmt) :
    declared (whileLoop place test body) = declaredIn body := by
  rw [declared, own, List.filterMap_cons_none rfl]
  rfl

@[simp] theorem declared_for (place : Coordinate) (name : String) (e : Expr) (body : List Stmt) :
    declared (forEach place name e body) = declaredIn body := by
  rw [declared, own, List.filterMap_cons_none rfl]
  rfl

@[simp] theorem declared_block (place : Coordinate) (body : List Stmt) :
    declared (block place body) = declaredIn body := by
  rw [declared, own, List.filterMap_cons_none rfl]
  rfl

@[simp] theorem declaredIn_nil : declaredIn [] = [] := rfl

@[simp] theorem declaredIn_cons (s : Stmt) (ss : List Stmt) :
    declaredIn (s :: ss) = declared s ++ declaredIn ss := by
  simp [declaredIn, declared, ownList]

@[simp] theorem declaredElse_none : declaredElse none = [] := rfl

@[simp] theorem declaredElse_some (s : Stmt) : declaredElse (some s) = declared s := rfl

end Stmt

namespace Compilation

mutual

/-- A statement takes as many entries as it declares functions. -/
theorem stmt_entries {pool : Pool} : ∀ (s : Stmt) {around : Surroundings} {es es' : List Nat}
    {code : Code}, (stmt pool around s).run es = .ok (code, es') → es' = es.drop s.declared.length
  | .expr .., _, _, _, _, h => (stmt_expr h).1
  | .bind .., _, _, _, _, h => (stmt_bind h).1
  | .function d, _, es, es', _, h => by
    obtain ⟨-, entry, rfl, -⟩ := stmt_function h
    rfl
  | .cond _ _ yes none, _, es, es', _, h => by
    obtain ⟨_, _, -, hyes, -⟩ := stmt_cond_none h
    simpa using stmts_entries yes hyes
  | .cond _ _ yes (some no), _, es, es', _, h => by
    obtain ⟨_, _, mid, _, -, hyes, hno, -⟩ := stmt_cond_some h
    have hmid := stmts_entries yes hyes
    have hlast := stmt_entries no hno
    rw [hlast, hmid, List.drop_drop]
    simp
  | .whileLoop _ _ body, _, es, es', _, h => by
    obtain ⟨_, _, -, hbody, -⟩ := stmt_while h
    simpa using stmts_entries body hbody
  | .forEach _ _ _ body, _, es, es', _, h => by
    obtain ⟨_, _, _, -, hbody, -⟩ := stmt_for h
    simpa using stmts_entries body hbody
  | .block _ body, _, es, es', _, h => by
    simpa using stmts_entries body (stmt_block h)
  | .personality .., _, _, _, _, h => (stmt_personality h).1
  | .giveBack _ none, _, _, _, _, h => (stmt_giveBack_none h).1
  | .giveBack _ (some _), _, _, _, _, h => (stmt_giveBack_some h).1
  | .leave _, _, _, _, _, h => (stmt_leave h).1
  | .again _, _, _, _, _, h => (stmt_again h).1
termination_by structural s => s

theorem stmts_entries {pool : Pool} : ∀ (ss : List Stmt) {around : Surroundings} {es es' : List Nat}
    {code : Code}, (stmts pool around [] ss).run es = .ok (code, es') →
      es' = es.drop (Stmt.declaredIn ss).length
  | [], _, _, _, _, h => (stmts_nil h).1
  | s :: ss, _, es, es', _, h => by
    obtain ⟨_, mid, _, hs, hss, -⟩ := stmts_cons h
    have hmid := stmt_entries s hs
    have hlast := stmts_entries ss hss
    rw [hlast, hmid, List.drop_drop]
    simp
termination_by structural ss => ss

end

/-! ### Pieces and boundaries -/

/-- Every piece has a property that depends on where it stands. -/
def Each (q : Nat → Piece → Prop) : Nat → Code → Prop
  | _, [] => True
  | off, p :: rest => q off p ∧ Each q (off + p.size) rest

theorem each_append {q : Nat → Piece → Prop} {off : Nat} {xs ys : Code} :
    Each q off (xs ++ ys) ↔ Each q off xs ∧ Each q (off + size xs) ys := by
  induction xs generalizing off with
  | nil => simp [Each]
  | cons p xs ih => simp [Each, ih, and_assoc, Nat.add_assoc]

theorem Each.imp {q q' : Nat → Piece → Prop} {off : Nat} {code : Code} (h : Each q off code)
    (hq : ∀ o p, q o p → q' o p) : Each q' off code := by
  induction code generalizing off with
  | nil => trivial
  | cons p code ih => exact ⟨hq _ _ h.1, ih h.2⟩

/-- All instructions of a code have a property, wherever they stand. -/
def HasOnly (q : Instruction → Prop) (code : Code) : Prop := ∀ i, .instr i ∈ code → q i

section
variable {q : Instruction → Prop}

theorem hasOnly_nil : HasOnly q [] := fun _ hi => absurd hi List.not_mem_nil

theorem hasOnly_append {xs ys : Code} : HasOnly q (xs ++ ys) ↔ HasOnly q xs ∧ HasOnly q ys := by
  simp only [HasOnly, List.mem_append]
  exact ⟨fun h => ⟨fun i hi => h i (.inl hi), fun i hi => h i (.inr hi)⟩, fun h i hi => hi.elim (h.1 i) (h.2 i)⟩

theorem hasOnly_cons {i : Instruction} {code : Code} : HasOnly q (.instr i :: code) ↔ q i ∧ HasOnly q code := by
  simp [HasOnly]

theorem hasOnly_flatten {codes : List Code} : HasOnly q codes.flatten ↔ ∀ code ∈ codes, HasOnly q code := by
  simp only [HasOnly, List.mem_flatten]
  exact ⟨fun h code hcode i hi => h i ⟨code, hcode, hi⟩, fun h i ⟨code, hcode, hi⟩ => h code hcode i hi⟩

/-- A literal has the instructions of its entries, and those that make its segments. -/
theorem hasOnly_segments {make : Nat → Instruction} {first : Bool} {done : Nat} {values : List Code}
    (hmake : ∀ n, q (make n)) (hextend : q .extend) (hvalues : ∀ v ∈ values, HasOnly q v) :
    HasOnly q (segments make first done values) := by
  have hjoin : HasOnly q (if first then [] else [.instr .extend]) := by
    cases first with
    | true => exact hasOnly_nil
    | false => exact hasOnly_cons.2 ⟨hextend, hasOnly_nil⟩
  induction values generalizing first done with
  | nil =>
    unfold segments
    split
    · exact hasOnly_nil
    · exact hasOnly_cons.2 ⟨hmake done, hjoin⟩
  | cons v values ih =>
    obtain ⟨hv, hvalues⟩ := List.forall_mem_cons.1 hvalues
    unfold segments
    split
    · have hrest : HasOnly q (segments make false 1 values) :=
        ih hvalues (hasOnly_cons.2 ⟨hextend, hasOnly_nil⟩)
      exact hasOnly_append.2 ⟨hasOnly_append.2 ⟨hasOnly_cons.2 ⟨hmake done, hjoin⟩, hv⟩, hrest⟩
    · exact hasOnly_append.2 ⟨hv, ih hvalues hjoin⟩

theorem hasOnly_entries {make : Nat → Instruction} {first : Bool} {done : Nat} {values : List Code}
    (h : HasOnly q (segments make first done values)) : ∀ v ∈ values, HasOnly q v := by
  induction values generalizing first done with
  | nil => exact fun v hv => absurd hv List.not_mem_nil
  | cons v values ih =>
    unfold segments at h
    split at h
    · simp only [hasOnly_append] at h
      exact List.forall_mem_cons.2 ⟨h.1.2, ih h.2⟩
    · rw [hasOnly_append] at h
      exact List.forall_mem_cons.2 ⟨h.1, ih h.2⟩

end

/-- All boundaries of the pieces, both ends included, have a property. -/
def Marked (m : Nat → Prop) : Nat → Code → Prop
  | off, [] => m off
  | off, p :: rest => m off ∧ Marked m (off + p.size) rest

theorem Marked.start {m : Nat → Prop} {off : Nat} {code : Code} (h : Marked m off code) : m off := by
  cases code with
  | nil => exact h
  | cons p code => exact h.1

theorem Marked.stop {m : Nat → Prop} {off : Nat} {code : Code} (h : Marked m off code) :
    m (off + size code) := by
  induction code generalizing off with
  | nil => exact h
  | cons p code ih =>
    have := ih h.2
    rwa [size_cons, ← Nat.add_assoc]

theorem marked_append {m : Nat → Prop} {off : Nat} {xs ys : Code} :
    Marked m off (xs ++ ys) ↔ Marked m off xs ∧ Marked m (off + size xs) ys := by
  induction xs generalizing off with
  | nil =>
    rw [List.nil_append, size_nil, Nat.add_zero]
    constructor
    · exact fun h => ⟨h.start, h⟩
    · exact And.right
  | cons p xs ih => simp [Marked, ih, and_assoc, Nat.add_assoc]

/-- A piece of the code begins here. -/
def IsStart (code : Code) (o : Nat) : Prop := ∃ front p back, code = front ++ p :: back ∧ size front = o

/-- A part of a code that something follows is marked by the code's starts. -/
theorem marked_of_part {code front part back : Code} {p : Piece}
    (h : code = front ++ (part ++ p :: back)) : Marked (IsStart code) (size front) part := by
  induction part generalizing front with
  | nil => exact ⟨front, p, back, h, rfl⟩
  | cons q part ih =>
    refine ⟨⟨front, q, part ++ p :: back, h, rfl⟩, ?_⟩
    have hmoved : code = (front ++ [q]) ++ (part ++ p :: back) := by simp [h]
    have hq := ih hmoved
    simpa using hq

/-! ### Filled gaps -/

/-- The gaps of a code are filled with jumps to one place. -/
inductive Filled (stop : Nat) : Nat → Code → Code → Prop
  | nil (off : Nat) : Filled stop off [] []
  | instr {off : Nat} {rest rest' : Code} (i : Instruction) :
    Filled stop (off + i.size) rest rest' → Filled stop off (.instr i :: rest) (.instr i :: rest')
  | exit {off : Nat} {rest rest' : Code} (d : Int) :
    Instruction.fitsJump d = true → (off + 3 : Nat) + d = stop →
    Filled stop (off + 3) rest rest' → Filled stop off (.exit :: rest) (.instr (.jump d) :: rest')

theorem filled_of_fillExits {place : Coordinate} {behind : Nat} {code filled : Code}
    (h : fillExits place behind code = .ok filled) (off : Nat) :
    Filled (off + size code + behind) off code filled := by
  induction code generalizing filled off with
  | nil =>
    cases h
    exact .nil off
  | cons p code ih =>
    cases p with
    | instr i =>
      simp only [fillExits, bind_eq_ok, pure_ok] at h
      obtain ⟨rest, hrest, rfl⟩ := h
      have := ih hrest (off + i.size)
      rw [size_cons, Piece.size_instr, ← Nat.add_assoc]
      exact .instr i this
    | exit =>
      simp only [fillExits, bind_eq_ok, pure_ok, jumpBy_ok] at h
      obtain ⟨jump, ⟨hfits, rfl⟩, rest, hrest, rfl⟩ := h
      have := ih hrest (off + 3)
      rw [size_cons, Piece.size_exit, ← Nat.add_assoc]
      refine .exit _ hfits ?_ this
      push_cast
      omega

theorem Filled.size_eq {stop off : Nat} {code filled : Code} (h : Filled stop off code filled) :
    size filled = size code := by
  induction h with
  | nil => rfl
  | instr i _ ih => rw [size_cons, size_cons, ih]
  | exit d _ _ _ ih =>
    rw [size_cons, size_cons, ih]
    rfl

theorem Filled.length_eq {stop off : Nat} {code filled : Code} (h : Filled stop off code filled) :
    filled.length = code.length := by
  induction h with
  | nil => rfl
  | instr i _ ih => rw [List.length_cons, List.length_cons, ih]
  | exit d _ _ _ ih => rw [List.length_cons, List.length_cons, ih]

theorem Filled.each {stop off : Nat} {code filled : Code} {q q' : Nat → Piece → Prop}
    (h : Filled stop off code filled) (hq : Each q off code)
    (hinstr : ∀ o i, q o (.instr i) → q' o (.instr i))
    (hexit : ∀ o d, Instruction.fitsJump d = true → (o + 3 : Nat) + d = stop → q o .exit →
      q' o (.instr (.jump d))) : Each q' off filled := by
  induction h with
  | nil => trivial
  | instr i _ ih => exact ⟨hinstr _ i hq.1, ih hq.2⟩
  | exit d hfits hstop _ ih => exact ⟨hexit _ d hfits hstop hq.1, ih hq.2⟩

theorem Filled.each_code {stop off : Nat} {code filled : Code} {q q' : Nat → Piece → Prop}
    (h : Filled stop off code filled) (hq : Each q' off filled)
    (hinstr : ∀ o i, q' o (.instr i) → q o (.instr i))
    (hexit : ∀ o d, (o + 3 : Nat) + d = (stop : Int) → q' o (.instr (.jump d)) → q o .exit) :
    Each q off code := by
  induction h with
  | nil => trivial
  | instr i _ ih => exact ⟨hinstr _ i hq.1, ih hq.2⟩
  | exit d _ hstop _ ih => exact ⟨hexit _ d hstop hq.1, ih hq.2⟩

theorem Filled.marked {stop off : Nat} {code filled : Code} {m : Nat → Prop}
    (h : Filled stop off code filled) : Marked m off filled ↔ Marked m off code := by
  induction h with
  | nil => exact Iff.rfl
  | instr i _ ih => exact and_congr Iff.rfl ih
  | exit d _ _ _ ih => exact and_congr Iff.rfl ih

/-! ### Bodies -/

/-- Entries of bodies in the code, and the statements of the bodies. -/
abbrev Table := List (Nat × List Stmt)

/-- There is an entry for every function, in order, and it is that of the function's body. -/
def Supplies (t : Table) : List FunctionDecl → List Nat → Prop
  | [], _ => True
  | d :: ds, e :: es => (e, d.body) ∈ t ∧ Supplies t ds es
  | _ :: _, [] => False

theorem Supplies.mono {t u : Table} (htu : ∀ x ∈ t, x ∈ u) {ds : List FunctionDecl} {es : List Nat}
    (h : Supplies t ds es) : Supplies u ds es := by
  induction ds generalizing es with
  | nil => trivial
  | cons d ds ih =>
    cases es with
    | nil => exact h
    | cons e es => exact ⟨htu _ h.1, ih h.2⟩

theorem supplies_append {t : Table} {ds ds' : List FunctionDecl} {es : List Nat} :
    Supplies t (ds ++ ds') es ↔ Supplies t ds es ∧ Supplies t ds' (es.drop ds.length) := by
  induction ds generalizing es with
  | nil => simp [Supplies]
  | cons d ds ih =>
    cases es with
    | nil => simp [Supplies]
    | cons e es => simp [Supplies, ih, and_assoc]

theorem Supplies.more {t : Table} {ds : List FunctionDecl} {es : List Nat} (h : Supplies t ds es)
    (more : List Nat) : Supplies t ds (es ++ more) := by
  induction ds generalizing es with
  | nil => trivial
  | cons d ds ih =>
    cases es with
    | nil => exact h.elim
    | cons e es => exact ⟨h.1, ih h.2⟩

/-- The code of a function's body; a body without `return` gives back null. -/
structure BodyCode (pool : Pool) (t : Table) (body : List Stmt) (whole : Code) : Prop where
  covered : pool.CoversStmts body
  compiled : ∃ es es' code, (stmts pool ⟨true, false, none⟩ [] body).run es = .ok (code, es') ∧
    Supplies t (Stmt.declaredIn body) es ∧ whole = code ++ [.instr .pushNull, .instr .ret]

/-- Bodies stand one behind the other, each at its entry. -/
inductive Laid (pool : Pool) (t : Table) : Nat → List Code → Table → Prop
  | nil (off : Nat) : Laid pool t off [] []
  | cons {off : Nat} {body : List Stmt} {whole : Code} {codes : List Code} {rest : Table} :
    BodyCode pool t body whole → Laid pool t (off + size whole) codes rest →
      Laid pool t off (whole :: codes) ((off, body) :: rest)

theorem Laid.mono {pool : Pool} {t u : Table} (htu : ∀ x ∈ t, x ∈ u) {off : Nat} {codes : List Code}
    {rest : Table} (h : Laid pool t off codes rest) : Laid pool u off codes rest := by
  induction h with
  | nil off => exact .nil off
  | cons hbody _ ih =>
    obtain ⟨es, es', code, hrun, hsupplies, hwhole⟩ := hbody.compiled
    exact .cons ⟨hbody.covered, es, es', code, hrun, hsupplies.mono htu, hwhole⟩ ih

theorem Laid.append {pool : Pool} {t : Table} {off : Nat} {codes codes' : List Code}
    {rest rest' : Table} (h : Laid pool t off codes rest)
    (h' : Laid pool t (off + size codes.flatten) codes' rest') :
    Laid pool t off (codes ++ codes') (rest ++ rest') := by
  induction h with
  | nil off => simpa using h'
  | cons hbody _ ih =>
    refine .cons hbody (ih ?_)
    simpa [Nat.add_assoc] using h'

/-- What writing the bodies of some functions adds to those already written. -/
structure Adds (pool : Pool) (ds : List FunctionDecl) (b b' : Bodies) : Prop where
  laid : ∃ codes t es, b'.code = codes.reverse ++ b.code ∧ b'.size = b.size + size codes.flatten ∧
    b'.entries = es.reverse ++ b.entries ∧ es.length = ds.length ∧ Laid pool t b.size codes t ∧
    Supplies t ds es

theorem Adds.none (pool : Pool) (b : Bodies) : Adds pool [] b b :=
  ⟨[], [], [], rfl, rfl, rfl, rfl, .nil _, trivial⟩

theorem Adds.trans {pool : Pool} {ds ds' : List FunctionDecl} {a b c : Bodies}
    (h : Adds pool ds a b) (h' : Adds pool ds' b c) : Adds pool (ds ++ ds') a c := by
  obtain ⟨codes, t, es, hcode, hsize, hentries, hlength, hlaid, hsupplies⟩ := h.laid
  obtain ⟨codes', t', es', hcode', hsize', hentries', hlength', hlaid', hsupplies'⟩ := h'.laid
  have hl : ∀ x ∈ t, x ∈ t ++ t' := fun x hx => List.mem_append_left _ hx
  have hr : ∀ x ∈ t', x ∈ t ++ t' := fun x hx => List.mem_append_right _ hx
  rw [hsize] at hlaid' hsize'
  refine ⟨codes ++ codes', t ++ t', es ++ es', ?_, ?_, ?_, ?_, (hlaid.mono hl).append (hlaid'.mono hr), ?_⟩
  · simp [hcode, hcode']
  · simp [hsize', Nat.add_assoc]
  · simp [hentries, hentries']
  · simp [hlength, hlength']
  · refine supplies_append.2 ⟨?_, ?_⟩
    · exact (hsupplies.mono hl).more es'
    · rw [← hlength, List.drop_left]
      exact hsupplies'.mono hr

theorem addBody_ok {pool : Pool} {d : FunctionDecl} {inner : List Nat} {b b' : Bodies}
    (h : addBody pool d inner b = .ok b') :
    ∃ es' code, (stmts pool ⟨true, false, none⟩ [] d.body).run inner = .ok (code, es') ∧
      b' = ⟨(code ++ [.instr .pushNull, .instr .ret]) :: b.code,
        b.size + size (code ++ [.instr .pushNull, .instr .ret]), b.size :: b.entries⟩ := by
  simp only [addBody, bind_eq_ok, pure_ok] at h
  obtain ⟨⟨code, es'⟩, hrun, rfl⟩ := h
  exact ⟨es', code, hrun, rfl⟩

/-- The body of a function goes behind the bodies of the functions inside it. -/
theorem adds_function {pool : Pool} {d : FunctionDecl} {b inner b' : Bodies}
    (hcovers : pool.CoversStmts d.body)
    (hinner : Adds pool (Stmt.declaredIn d.body) { b with entries := [] } inner)
    (h : addBody pool d inner.entries.reverse { inner with entries := b.entries } = .ok b') :
    Adds pool [d] b b' := by
  obtain ⟨codes, t, es, hcode, hsize, hentries, hlength, hlaid, hsupplies⟩ := hinner.laid
  obtain ⟨es', code, hrun, rfl⟩ := addBody_ok h
  simp only [List.append_nil] at hentries
  rw [hentries, List.reverse_reverse] at hrun
  have hl : ∀ x ∈ t, x ∈ t ++ [(inner.size, d.body)] := fun x hx => List.mem_append_left _ hx
  have hbody : BodyCode pool (t ++ [(inner.size, d.body)]) d.body
      (code ++ [.instr .pushNull, .instr .ret]) :=
    ⟨hcovers, es, es', code, hrun, hsupplies.mono hl, rfl⟩
  have hlast : Laid pool (t ++ [(inner.size, d.body)]) (b.size + size codes.flatten)
      [code ++ [.instr .pushNull, .instr .ret]] [(inner.size, d.body)] := by
    simp only at hsize
    rw [← hsize]
    exact .cons hbody (.nil _)
  refine ⟨codes ++ [code ++ [.instr .pushNull, .instr .ret]], t ++ [(inner.size, d.body)], [inner.size],
    ?_, ?_, rfl, rfl, (hlaid.mono hl).append hlast, ?_⟩
  · simp [hcode]
  · simp [hsize, Nat.add_assoc]
  · exact ⟨List.mem_append_right _ (List.mem_singleton_self _), trivial⟩

mutual

/-- Writing bodies adds those of the functions that a statement declares, each behind those
of the functions inside it. -/
theorem bodies_adds {pool : Pool} : ∀ (s : Stmt) {b b' : Bodies}, pool.CoversStmt s →
    bodies pool s b = .ok b' → Adds pool s.declared b b'
  | .function ⟨_, _, _, _, body⟩, b, b', hc, h => by
    rw [bodies, bind_eq_ok] at h
    obtain ⟨inner, hinner, hadd⟩ := h
    exact adds_function hc.2.2 (bodiesOf_adds body hc.2.2 hinner) hadd
  | .cond _ _ yes no, b, b', hc, h => by
    rw [bodies, bind_eq_ok] at h
    obtain ⟨mid, hyes, hno⟩ := h
    rw [Stmt.declared_cond]
    exact (bodiesOf_adds yes hc.2.1 hyes).trans (bodiesElse_adds no hc.2.2 hno)
  | .whileLoop _ _ body, b, b', hc, h => by
    rw [Stmt.declared_while]
    exact bodiesOf_adds body hc.2 h
  | .forEach _ _ _ body, b, b', hc, h => by
    rw [Stmt.declared_for]
    exact bodiesOf_adds body hc.2.2 h
  | .block _ body, b, b', hc, h => by
    rw [Stmt.declared_block]
    exact bodiesOf_adds body hc h
  | .expr .., b, b', _, h => by
    cases h
    exact .none pool b
  | .bind .., b, b', _, h => by
    cases h
    exact .none pool b
  | .personality .., b, b', _, h => by
    cases h
    exact .none pool b
  | .giveBack .., b, b', _, h => by
    cases h
    exact .none pool b
  | .leave _, b, b', _, h => by
    cases h
    exact .none pool b
  | .again _, b, b', _, h => by
    cases h
    exact .none pool b
termination_by structural s => s

theorem bodiesOf_adds {pool : Pool} : ∀ (ss : List Stmt) {b b' : Bodies}, pool.CoversStmts ss →
    bodiesOf pool ss b = .ok b' → Adds pool (Stmt.declaredIn ss) b b'
  | [], b, b', _, h => by
    cases h
    exact .none pool b
  | s :: ss, b, b', hc, h => by
    rw [bodiesOf, bind_eq_ok] at h
    obtain ⟨mid, hs, hss⟩ := h
    rw [Stmt.declaredIn_cons]
    exact (bodies_adds s hc.1 hs).trans (bodiesOf_adds ss hc.2 hss)
termination_by structural ss => ss

theorem bodiesElse_adds {pool : Pool} : ∀ (no : Option Stmt) {b b' : Bodies}, pool.CoversElse no →
    bodiesElse pool no b = .ok b' → Adds pool (Stmt.declaredElse no) b b'
  | none, b, b', _, h => by
    cases h
    exact .none pool b
  | some s, b, b', hc, h => bodies_adds s hc h
termination_by structural no => no

end

/-- A body that is laid stands at its entry. -/
theorem Laid.code_at {pool : Pool} {t : Table} {off : Nat} {codes : List Code} {rest : Table}
    (h : Laid pool t off codes rest) {entry : Nat} {body : List Stmt} (hmem : (entry, body) ∈ rest) :
    ∃ front whole back, codes.flatten = front ++ (whole ++ back) ∧ off + size front = entry ∧
      BodyCode pool t body whole := by
  induction h with
  | nil => cases hmem
  | cons hbody _ ih =>
    next off b whole codes rest _ =>
    rcases List.mem_cons.1 hmem with heq | htail
    · cases heq
      exact ⟨[], whole, codes.flatten, by simp, by simp, hbody⟩
    · obtain ⟨front, w, back, hcodes, hoff, hw⟩ := ih htail
      refine ⟨whole ++ front, w, back, by simp [hcodes], ?_, hw⟩
      rw [size_append]
      omega

theorem Laid.entries_le {pool : Pool} {t : Table} {off : Nat} {codes : List Code} {rest : Table}
    (h : Laid pool t off codes rest) : ∀ x ∈ rest, off ≤ x.1 := by
  induction h with
  | nil =>
    intro x hx
    cases hx
  | cons _ _ ih =>
    intro x hx
    rcases List.mem_cons.1 hx with rfl | htail
    · exact Nat.le_refl _
    · have := ih x htail
      omega

/-- No two bodies have the same entry. -/
theorem Laid.entries_increase {pool : Pool} {t : Table} {off : Nat} {codes : List Code} {rest : Table}
    (h : Laid pool t off codes rest) : rest.Pairwise fun x y => x.1 < y.1 := by
  induction h with
  | nil => exact .nil
  | cons hbody htail ih =>
    next off b whole codes rest =>
    obtain ⟨_, _, code, _, _, rfl⟩ := hbody.compiled
    refine List.pairwise_cons.2 ⟨?_, ih⟩
    intro y hy
    have := htail.entries_le y hy
    have hret : (Instruction.ret).size = 1 := rfl
    simp only [size_append, size_cons, Piece.size_instr, hret] at this
    show off < y.1
    omega

/-! ### Programs -/

/-- The parts of a compiled program. -/
structure Parts (p : Program) where
  codes : List Code
  table : Table
  setup : Code
  main : Code
  entries : List Nat
  unused : List Nat
  laid : Laid (Pool.ofProgram p) table 0 codes table
  supplies : Supplies table (Stmt.declaredIn p.statements) entries
  setup_ok : personalityCode (Pool.ofProgram p) p.personalityBlocks = .ok setup
  main_ok : (stmts (Pool.ofProgram p) ⟨false, false, none⟩ [] p.statements).run entries =
    .ok (main, unused)

namespace Parts

/-- All pieces in order: the bodies, the personality blocks, the statements. -/
def whole {p : Program} (x : Parts p) : Code :=
  x.codes.flatten ++ (x.setup ++ (x.main ++ [.instr .halt]))

/-- Where the run begins. -/
def entry {p : Program} (x : Parts p) : Nat := size x.codes.flatten

def bytecode {p : Program} (x : Parts p) : Bytecode :=
  ⟨(Pool.ofProgram p).constants, (instructions x.whole).flatMap Instruction.encode, x.entry⟩

end Parts

/-- A program that compiles has these parts, with the bodies that its statements add. -/
theorem exists_parts_of_bodies {p : Program} {q : Bytecode} (h : compile p = .ok q) :
    ∃ x : Parts p, q = x.bytecode ∧
      ∃ b, bodiesOf (Pool.ofProgram p) p.statements ⟨[], 0, []⟩ = .ok b ∧ b.code = x.codes.reverse := by
  simp only [compile, bind_eq_ok, pure_ok] at h
  obtain ⟨b, hb, setup, hsetup, ⟨main, unused⟩, hmain, rfl⟩ := h
  obtain ⟨codes, t, es, hcode, hsize, hentries, -, hlaid, hsupplies⟩ :=
    (bodiesOf_adds p.statements (Pool.covers_ofProgram p) hb).laid
  simp only [List.append_nil, Nat.zero_add] at hcode hsize hentries
  rw [hentries, List.reverse_reverse] at hmain
  refine ⟨⟨codes, t, setup, main, es, unused, hlaid, hsupplies, hsetup, hmain⟩, ?_, b, hb, hcode⟩
  simp [Parts.bytecode, Parts.whole, Parts.entry, hcode, hsize]

/-- A program that compiles has these parts. -/
theorem exists_parts {p : Program} {q : Bytecode} (h : compile p = .ok q) :
    ∃ x : Parts p, q = x.bytecode := by
  obtain ⟨x, hx, -⟩ := exists_parts_of_bodies h
  exact ⟨x, hx⟩

end Compilation

end Persona
