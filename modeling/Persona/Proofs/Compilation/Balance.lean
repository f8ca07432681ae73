import Persona.Proofs.Compilation.Chart

/-! The chart of a compiled program.

A function is entered with nothing on the stack above its base, and the program itself begins
and ends with nothing at all. So the sites along the bodies, the personality blocks and the
statements, put together, say what is on the stack wherever the program can stand. -/
namespace Persona.Compilation

/-! ### Charts from sites -/

/-- The sites of the pieces of a code, by the offsets where the pieces begin. -/
def chartOf : Nat → Code → List Site → Chart
  | off, p :: code, s :: sites => fun o => if o = off then some s else chartOf (off + p.size) code sites o
  | _, _, _ => fun _ => none

theorem Piece.size_pos (p : Piece) : 0 < p.size := by
  cases p with
  | instr i => exact i.size_pos
  | exit => decide

/-- A site of the chart is that of a piece. -/
theorem isStart_of_chartOf {code : Code} {sites : List Site} {off o : Nat} {s : Site}
    (h : chartOf off code sites o = some s) : ∃ k, IsStart code k ∧ off + k = o := by
  induction code generalizing off sites with
  | nil => cases h
  | cons p code ih =>
    cases sites with
    | nil => cases h
    | cons s' sites =>
      unfold chartOf at h
      split at h
      · next ho => exact ⟨0, ⟨[], p, code, rfl, rfl⟩, ho.symm⟩
      · obtain ⟨k, ⟨front, q, back, rfl, rfl⟩, hk⟩ := ih h
        refine ⟨_, ⟨p :: front, q, back, rfl, rfl⟩, ?_⟩
        rw [size_cons]
        omega

/-- The chart before a piece says nothing of what is behind it. -/
theorem Bears.congr {t t' : Chart} {after : Site} {off : Nat} {code : Code} {sites : List Site}
    (h : Bears t after off code sites) (ht : ∀ o, off ≤ o → t' o = t o) : Bears t' after off code sites := by
  induction code generalizing off sites with
  | nil =>
    cases sites with
    | nil => exact (ht off (Nat.le_refl off)).trans h
    | cons s sites => exact h.elim
  | cons p code ih =>
    cases sites with
    | nil => exact h.elim
    | cons s sites => exact ⟨(ht off (Nat.le_refl off)).trans h.1, ih h.2 fun o ho => ht o (by omega)⟩

/-- What comes last gives the site behind the code in front of it. -/
theorem bears_chartOf (last : Piece) (after : Site) {code : Code} {sites : List Site}
    (hlength : sites.length = code.length) (off : Nat) :
    Bears (chartOf off (code ++ [last]) (sites ++ [after])) after off code sites := by
  induction code generalizing off sites with
  | nil =>
    obtain rfl := List.length_eq_zero_iff.1 hlength
    exact if_pos rfl
  | cons p code ih =>
    cases sites with
    | nil => cases hlength
    | cons s sites =>
      refine ⟨if_pos rfl, (ih (Nat.succ.inj hlength) (off + p.size)).congr fun o ho => if_neg ?_⟩
      have := p.size_pos
      omega

/-- There is a chart that bears the sites and has none besides those and the one of the piece
behind. -/
theorem exists_bears (off : Nat) (last : Piece) (after : Site) {code : Code} {sites : List Site}
    (hlength : sites.length = code.length) :
    ∃ t, Bears t after off code sites ∧ ∀ o s, t o = some s → ∃ k, IsStart (code ++ [last]) k ∧ off + k = o :=
  ⟨_, bears_chartOf last after hlength off, fun _ _ => isStart_of_chartOf⟩

/-! ### Blocks -/

/-- The body of a function, entered with an empty stack. -/
def bodyBlock (entry : Nat) (es : List Nat) (body : List Stmt) : Block := ⟨⟨true, false, none⟩, es, body, entry, 0⟩

/-- The code of a block stands in a program where the block says, and the functions that the
block declares have their entries. -/
structure Block.StandsIn (pool : Pool) (table : Table) (whole : Code) (b : Block) : Prop where
  placed : ∃ front code back es', (stmts pool b.around [] b.statements).run b.entries = .ok (code, es') ∧
    whole = front ++ (code ++ back) ∧ size front = b.offset
  supplied : Supplies table (Stmt.declaredIn b.statements) b.entries

/-- The chart has two slots for each `for` loop at the boundaries of a block. -/
def Block.Charted (pool : Pool) (t : Chart) (b : Block) : Prop :=
  ∀ o n, Boundary pool b o n → t o = some (b.around.site n)

/-! ### Programs -/

/-- Bodies, one behind the other. What follows the last one does not matter: they end with a
return. -/
theorem shapes_laid {pool : Pool} {table rest : Table} {off : Nat} {codes : List Code}
    (h : Laid pool table off codes rest) (after : Site) {whole front back : Code}
    (hwhole : whole = front ++ (codes.flatten ++ back)) (hoff : size front = off) :
    ∃ before, Shapes before after codes.flatten fun t o => o = off →
      (∀ x ∈ rest, t x.1 = some .entry) ∧ ((∀ x ∈ table, t x.1 = some .entry) →
        Each (Sits t none) o codes.flatten ∧ ∀ x ∈ rest, ∃ es,
          (bodyBlock x.1 es x.2).StandsIn pool table whole ∧ (bodyBlock x.1 es x.2).Charted pool t) := by
  induction h generalizing front with
  | nil =>
    refine ⟨after, (shapes_nil after).imp fun t o _ _ _ _ => ⟨fun x hx => ?_, fun _ => ⟨trivial, fun x hx => ?_⟩⟩⟩
    · cases hx
    · cases hx
  | cons hbody _ ih =>
    next off body bodyCode codes rest _ =>
    obtain ⟨es, es', code, hrun, hsupplies, rfl⟩ := hbody.compiled
    rw [List.flatten_cons] at hwhole ⊢
    have hmoved : whole = front ++ (code ++ [.instr .pushNull, .instr .ret]) ++ (codes.flatten ++ back) := by
      rw [hwhole]
      simp only [List.append_assoc]
    obtain ⟨next, hrest⟩ := ih hmoved (by rw [size_append, hoff])
    have hcode : Shapes (Surroundings.site ⟨true, false, none⟩ 0) (Surroundings.site ⟨true, false, none⟩ 0) code
        (Serves table ⟨true, false, none⟩ 0 code fun off => Boundary pool (bodyBlock off es body)) :=
      shapes_stmts body hrun hsupplies
    have hnull : Shaped none true [] [.value] [.instr .pushNull] := shaped_effect rfl
    have hend := Shapes.append hnull (shapes_piece ⟨true, [.value]⟩ next (.instr .ret))
    refine ⟨.entry, (Shapes.append (Shapes.append hcode hend) hrest).imp fun t o hstart _ h ho => ?_⟩
    obtain ⟨⟨hserves, -, hnullEach, hret, -⟩, -, hrest⟩ := h
    obtain ⟨hentries, hsits⟩ := hrest (by rw [ho]; rfl)
    subst ho
    refine ⟨List.forall_mem_cons.2 ⟨hstart, hentries⟩, fun ht => ?_⟩
    have hnoLoop : LoopMarked (fun o => t o = some (Surroundings.site ⟨true, false, none⟩ 0)) ⟨true, false, none⟩ o :=
      fun n hn => by cases hn
    obtain ⟨hcodeEach, hcharted⟩ := hserves ht hnoLoop
    obtain ⟨hrestEach, hbodies⟩ := hsits ht
    have hstands : (bodyBlock o es body).StandsIn pool table whole :=
      ⟨⟨front, code, _, es', hrun, by rw [hwhole, List.append_assoc, List.append_assoc], hoff⟩, hsupplies⟩
    refine ⟨each_append.2 ⟨each_append.2 ⟨hcodeEach, hnullEach.1, ⟨_, hret, _, [], rfl, rfl⟩, trivial⟩, hrestEach⟩,
      List.forall_mem_cons.2 ⟨⟨es, hstands, hcharted⟩, hbodies⟩⟩

theorem shaped_personality {pool : Pool} {blocks : List (List TraitEntry)} {code : Code}
    (h : personalityCode pool blocks = .ok code) : Shaped none false [] [] code := by
  induction blocks generalizing code with
  | nil =>
    cases h
    exact shaped_nil
  | cons block blocks ih =>
    obtain ⟨-, rest, hrest, rfl⟩ := personalityCode_cons h
    exact (shaped_effect rfl).cons (ih hrest)

namespace Parts

variable {p : Program}

/-- The statements outside of functions. -/
def mainBlock (x : Parts p) : Block :=
  ⟨⟨false, false, none⟩, x.entries, p.statements, x.entry + size x.setup, 0⟩

/-- The block stands in the program and has two slots for each loop at its boundaries. -/
def HasBlock (x : Parts p) (t : Chart) (b : Block) : Prop :=
  b.StandsIn (Pool.ofProgram p) x.table x.whole ∧ b.Charted (Pool.ofProgram p) t

/-- A chart of a program: all pieces sit, it has sites where pieces begin, functions are entered
and blocks have their boundaries, and nothing is on the stack at the beginning and at the end. -/
structure Charted (x : Parts p) (t : Chart) : Prop where
  sits : Each (Sits t none) 0 x.whole
  starts : ∀ o s, t o = some s → IsStart x.whole o
  entry : t x.entry = some ⟨false, []⟩
  main : x.HasBlock t x.mainBlock
  bodies : ∀ y ∈ x.table, ∃ es, x.HasBlock t (bodyBlock y.1 es y.2)
  last : ∃ front, x.whole = front ++ [.instr .halt] ∧ t (size front) = some ⟨false, []⟩

/-- A program that compiles has a chart. -/
theorem exists_chart (x : Parts p) : ∃ t, x.Charted t := by
  have hwhole : x.whole = [] ++ (x.codes.flatten ++ (x.setup ++ (x.main ++ [.instr .halt]))) := rfl
  obtain ⟨before, hlaid⟩ := shapes_laid x.laid ⟨false, []⟩ hwhole rfl
  have hmain : Shapes (Surroundings.site ⟨false, false, none⟩ 0) (Surroundings.site ⟨false, false, none⟩ 0) x.main
      (Serves x.table ⟨false, false, none⟩ 0 x.main fun off =>
        Boundary (Pool.ofProgram p) ⟨⟨false, false, none⟩, x.entries, p.statements, off, 0⟩) :=
    shapes_stmts p.statements x.main_ok x.supplies
  obtain ⟨sites, hlength, hsites⟩ := Shapes.append hlaid (Shapes.append (shaped_personality x.setup_ok) hmain)
  obtain ⟨t, hbears, hstarts⟩ := exists_bears 0 (.instr .halt) ⟨false, []⟩ hlength
  have hcode : x.whole = x.codes.flatten ++ (x.setup ++ x.main) ++ [.instr .halt] := by
    rw [whole]
    simp only [List.append_assoc]
  obtain ⟨-, hbodies, hentry, hsetup, -, hserves⟩ := hsites t 0 hbears
  obtain ⟨hentries, hsits⟩ := hbodies rfl
  obtain ⟨hbodiesEach, hbodies⟩ := hsits hentries
  have hnoLoop : LoopMarked (fun o => t o = some (Surroundings.site ⟨false, false, none⟩ 0)) ⟨false, false, none⟩
      (0 + size x.codes.flatten + size x.setup) := fun n hn => by cases hn
  obtain ⟨hmainEach, hcharted⟩ := hserves hentries hnoLoop
  have hlast := hbears.stop
  rw [Nat.zero_add] at hentry hcharted hlast
  have hstarts : ∀ o s, t o = some s → IsStart x.whole o := by
    intro o s hs
    obtain ⟨k, hk, rfl⟩ := hstarts o s hs
    rwa [Nat.zero_add, hcode]
  refine ⟨t, ?_, hstarts, hentry, ⟨⟨?_, x.supplies⟩, hcharted⟩, hbodies, ⟨_, hcode, hlast⟩⟩
  · have hhalt : Each (Sits t none) (0 + size (x.codes.flatten ++ (x.setup ++ x.main))) [.instr .halt] :=
      ⟨⟨_, hbears.stop, trivial⟩, trivial⟩
    rw [hcode]
    exact each_append.2 ⟨each_append.2 ⟨hbodiesEach, each_append.2 ⟨hsetup, hmainEach⟩⟩, hhalt⟩
  · exact ⟨x.codes.flatten ++ x.setup, x.main, _, x.unused, x.main_ok, by rw [whole, List.append_assoc],
      size_append _ _⟩

end Parts

end Persona.Compilation
