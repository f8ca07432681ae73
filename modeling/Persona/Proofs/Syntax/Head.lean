import Mathlib.Data.List.Nodup
import Persona.Proofs.Syntax.Place

/-! Where statements begin.

A statement begins at a token, which it takes, and the statements inside it begin behind that one. So the
statements of a program, those in its functions too, begin at tokens of the source, each at one of its
own, and a place says which statement is meant. -/
namespace Persona

namespace Stmt

/-- Where a statement and the statements inside it begin. -/
def heads (s : Stmt) : List Coordinate := s.deep.map place

theorem map_place_deepList (ss : List Stmt) : (deepList ss).map place = ss.flatMap heads := by
  induction ss with
  | nil => rfl
  | cons s rest ih => rw [deepList, List.map_append, ih, List.flatMap_cons, heads]

end Stmt

namespace Parser

variable {source x : List Coordinate} {α β : Type} {f : α → List Coordinate} {g : β → List Coordinate} {t : Token}

/-- The same as `Stands`, where `t` is the next token and the parser takes it. -/
def BeginsAt (t : Token) (source x : List Coordinate) (p : Parser α) (f : α → List Coordinate) : Prop :=
  ∀ ts a ts', (x ++ starts ts).Sublist source → p (t :: ts) = .ok (a, ts') → (f a ++ starts ts').Sublist source

namespace BeginsAt

variable {p : Parser α}

theorem bind {k : α → Parser β} (hp : BeginsAt t source x p f) (hk : ∀ a, Stands source (f a) (k a) g) :
    BeginsAt t source x (p >>= k) g := by
  intro ts b ts' hts h
  have hbind : (p >>= k) (t :: ts) = (p (t :: ts) >>= fun r => k r.1 r.2) := rfl
  rw [hbind] at h
  cases hp' : p (t :: ts) with
  | error e =>
    rw [hp'] at h
    cases h
  | ok r =>
    rw [hp'] at h
    exact hk r.1 r.2 b ts' (hp ts r.1 r.2 hts hp') h

theorem map {m : α → β} (hp : BeginsAt t source x p f) (hm : ∀ a, g (m a) = f a) : BeginsAt t source x (m <$> p) g := by
  rw [map_eq_pure_bind]
  exact hp.bind fun a => .pure (hm a)

theorem advance {k : Unit → Parser α} (hk : Stands source x (k ()) f) : BeginsAt t source x (advance >>= k) f :=
  fun ts a ts' hts h => hk ts a ts' hts h

theorem peekLexeme {k : Option Lexeme → Parser α} (hk : BeginsAt t source x (k (some t.lexeme)) f) :
    BeginsAt t source x (peekLexeme >>= k) f := hk

theorem peek {k : Option Token → Parser α} (hk : BeginsAt t source x (k (some t)) f) :
    BeginsAt t source x (peek >>= k) f := hk

theorem here {k : Coordinate → Parser α} (hk : BeginsAt t source x (k t.start.coordinate) f) :
    BeginsAt t source x (here >>= k) f := hk

theorem failHere (fault : SyntaxFault) : BeginsAt t source x (failHere fault) f := fun _ _ _ _ h => nomatch h

theorem expect {k : Unit → Parser α} (l : Lexeme) (hk : Stands source x (k ()) f) :
    BeginsAt t source x (expect l >>= k) f := by
  have hexpect : BeginsAt t source x (Parser.expect l) fun _ => x := by
    refine .peekLexeme ?_
    dsimp only
    split
    · exact .advance (k := Pure.pure) (.pure rfl)
    · exact .failHere _
  exact hexpect.bind fun _ => hk

/-- A parser that fails where no token is left, and otherwise takes one. -/
theorem stands (hnone : ∀ r, p [] ≠ .ok r) (hp : ∀ t, BeginsAt t source x p f) : Stands source x p f := by
  intro ts a ts' hts h
  cases ts with
  | nil => exact absurd h (hnone _)
  | cons t ts => exact hp t ts a ts' (((List.sublist_cons_self _ _).append_left x).trans hts) h

end BeginsAt

/-- What begins here has the place of the next token, and what it takes behind that has other places. -/
theorem stands_here {k : Coordinate → Parser α} (hnone : ∀ place r, k place [] ≠ .ok r)
    (hsome : ∀ t, BeginsAt t source (x ++ [t.start.coordinate]) (k t.start.coordinate) f) :
    Stands source x (here >>= k) f := by
  intro ts a ts' hts h
  cases ts with
  | nil => exact absurd h (hnone _ _)
  | cons t ts => exact hsome t ts a ts' (by rw [List.append_assoc]; exact hts) h

/-! ### Expressions -/

theorem Stands.forget {p : Parser α} (hp : Stands source x p fun a => x ++ f a) : Stands source x p fun _ => x :=
  fun ts a ts' hts h => ((List.sublist_append_left x (f a)).append_right _).trans (hp ts a ts' hts h)

theorem bare_expression (limit room minimum : Nat) : Bare (expression limit room minimum) :=
  fun _ x => ((names_expression limit room).1 minimum x).forget

section
variable {expr : Parser Expr}

theorem bare_row {item : Parser α} (hitem : Bare item) (close : Mark) (missing : SyntaxFault) :
    Bare (row close missing item) := by
  intro source x
  have hnothing : ∀ x, Stands source x item fun a => x ++ (fun _ => []) a := by
    intro x
    simpa using hitem source x
  exact (stands_row hnothing missing x).forget

theorem bare_mapEntry (hexpr : Bare expr) : Bare (mapEntry expr) := by
  have hvalue : ∀ key : String, Bare (do expect (.mark .colon); return (key, ← expr)) :=
    fun key => (bare_expect _).bind fun _ => hexpr.bind fun _ => .pure _
  refine bare_peekLexeme.bind fun _ => ?_
  split
  · exact bare_advance.bind fun _ => hvalue _
  · exact bare_advance.bind fun _ => hvalue _
  · exact (bare_failHere _).bind fun key => hvalue key
  · exact (bare_failHere _).bind fun key => hvalue key

theorem beginsAt_base (hexpr : Bare expr) : BeginsAt t source x (base expr) fun _ => x := by
  refine .peek ?_
  dsimp only
  split
  · refine BeginsAt.bind (f := fun _ => x) ?_ fun _ => .pure rfl
    unfold numberValue
    split
    · exact .advance (.pure rfl)
    · exact .failHere _
  · exact .advance (.pure rfl)
  · exact .advance (.pure rfl)
  · exact .advance (.pure rfl)
  · exact .advance (.pure rfl)
  · exact .advance (.pure rfl)
  · exact .advance ((hexpr _ _).bind fun _ => (bare_expectClosing _ _ _ _).bind fun _ => .pure rfl)
  · exact .advance ((bare_row hexpr _ _ _ _).bind fun _ => .pure rfl)
  · exact .advance ((bare_body (bare_mapEntry hexpr) _ _ _).bind fun _ => .pure rfl)
  · exact .failHere _

theorem bare_postfixes (hexpr : Bare expr) {place : Coordinate} {bound : List Token} {e : Expr} :
    Bare (postfixes expr place bound e) := by
  induction bound generalizing e with
  | nil => exact .pure _
  | cons _ bound ih =>
    refine bare_peekLexeme.bind fun _ => ?_
    split
    · exact bare_advance.bind fun _ => (bare_row hexpr _ _).bind fun es => ih
    · exact bare_advance.bind fun _ => hexpr.bind fun key => (bare_expectClosing _ _).bind fun _ => ih
    · exact .pure _

theorem bare_operators {operand : Nat → Parser Expr} (hoperand : ∀ minimum, Bare (operand minimum)) {minimum : Nat}
    {bound : List Token} {e : Expr} : Bare (operators operand minimum bound e) := by
  induction bound generalizing e with
  | nil => exact .pure _
  | cons _ bound ih =>
    refine bare_peekLexeme.bind fun _ => ?_
    split
    · exact .pure _
    · split
      · exact .pure _
      · refine bare_here.bind fun place => bare_advance.bind fun _ => (hoperand _).bind fun r => ?_
        split
        · exact ih
        · exact ih
        · exact fun _ _ => stands_failAt _ _

theorem beginsAt_primary (hexpr : Bare expr) : BeginsAt t source x (primary expr) fun _ => x := by
  refine .here ((beginsAt_base hexpr).bind fun e => (bare_get _ _).bind fun bound => ?_)
  exact bare_postfixes hexpr _ _

end

theorem beginsAt_unary (limit room : Nat) : BeginsAt t source x (unary limit room) fun _ => x := by
  have hsign : ∀ op, BeginsAt t source x (do return .unary op (← operand limit room) : Parser Expr) fun _ => x := by
    refine fun op => BeginsAt.bind (f := fun _ => x) ?_ fun e => .pure rfl
    cases room with
    | zero =>
      rw [operand]
      exact .advance (stands_failHere _)
    | succ room =>
      rw [operand]
      exact .advance ((names_expression limit room).2 x).forget
  rw [unary]
  refine .peekLexeme ?_
  split
  · exact hsign _
  · exact hsign _
  · exact beginsAt_primary (bare_expression limit room 0)

/-- An expression takes the token that it begins at. -/
theorem beginsAt_expression (limit room minimum : Nat) :
    BeginsAt t source x (expression limit room minimum) fun _ => x := by
  cases room with
  | zero =>
    rw [expression]
    exact .failHere _
  | succ room =>
    rw [expression]
    refine (beginsAt_unary limit room).bind fun e => (bare_get _ _).bind fun bound => ?_
    exact bare_operators (fun minimum => bare_expression limit room minimum) _ _

/-! ### Statements -/

section
variable {limit : Nat}

/-- What reads a block begins at its brace and takes the places where its statements begin. -/
def BlockHeads (source : List Coordinate) (p : Parser (List Stmt)) : Prop :=
  (∀ r, p [] ≠ .ok r) ∧ ∀ t x, BeginsAt t source x p fun ss => x ++ ss.flatMap Stmt.heads

/-- What reads a statement takes the places where it and the statements inside it begin. -/
def StmtHeads (source : List Coordinate) (p : Parser Stmt) : Prop := ∀ x, Stands source x p fun s => x ++ s.heads

theorem BlockHeads.stands {p : Parser (List Stmt)} (hp : BlockHeads source p) (x : List Coordinate) :
    Stands source x p fun ss => x ++ ss.flatMap Stmt.heads := BeginsAt.stands hp.1 fun t => hp.2 t x

theorem blockHeads_block {around : Surroundings} {room : Nat}
    (hstatement : ∀ inner, room = inner + 1 → StmtHeads source (statement limit ⟨true, around.inLoop⟩ inner)) :
    BlockHeads source (block limit around room) := by
  cases room with
  | zero =>
    rw [block]
    refine ⟨fun r hr => ?_, fun t x => .expect _ (stands_failHere _)⟩
    cases hr
  | succ room =>
    rw [block]
    refine ⟨fun r hr => ?_, fun t x => .expect _ ((bare_get _ _).bind fun bound => ?_)⟩
    · cases hr
    refine (stands_statements (hstatement room rfl) (List.append_nil x).symm).bind fun _ => ?_
    exact (bare_expectClosing _ _ _ _).bind fun _ => .pure rfl

/-- A function begins at its keyword. -/
theorem beginsAt_function {body : Parser (List Stmt)} (hbody : BlockHeads source body) :
    BeginsAt t source (x ++ [t.start.coordinate]) (Stmt.function <$> function body t.start.coordinate)
      fun s => x ++ s.heads := by
  have hdecl : BeginsAt t source (x ++ [t.start.coordinate]) (function body t.start.coordinate)
      fun d => x ++ (Stmt.function d).heads := by
    refine .advance ((bare_expectName _ _).bind fun name => (bare_expect _ _ _).bind fun _ => ?_)
    refine (bare_body bare_param _ _ _).bind fun params => (bare_accept _ _ _).bind fun arrow => ?_
    have hrest : ∀ returnType, Stands source (x ++ [t.start.coordinate])
        (do return ⟨t.start.coordinate, name, params, returnType, ← body⟩)
        fun d : FunctionDecl => x ++ (Stmt.function d).heads := by
      refine fun returnType => (hbody.stands _).bind fun ss => .pure ?_
      rw [Stmt.heads, Stmt.deep, List.map_cons, Stmt.map_place_deepList, List.append_assoc]
      rfl
    cases arrow with
    | true => exact (bare_expectType.map _ _).bind fun _ => hrest _
    | false => exact hrest none
  exact hdecl.map fun _ => rfl

theorem beginsAt_personality (around : Surroundings) : BeginsAt t source x (personality around) fun _ => x := by
  have hentries : BeginsAt t source x (do advance; expect (.mark .leftBrace); body .rightBrace .missingBrace traitEntry)
      fun _ => x := .advance ((bare_expect _ _ _).bind fun _ => bare_body bare_traitEntry _ _ _)
  unfold personality
  split
  · exact fun _ _ _ _ h => nomatch h
  · exact hentries

/-- What reads a conditional begins at its keyword. -/
def CondHeads (source : List Coordinate) (p : Coordinate → Parser Stmt) : Prop :=
  ∀ t x, BeginsAt t source (x ++ [t.start.coordinate]) (p t.start.coordinate) fun s => x ++ s.heads

theorem condHeads_step {around : Surroundings} {room : Nat} (hblock : BlockHeads source (block limit around room))
    (hchain : ∀ inner, room = inner + 1 → CondHeads source (conditional limit around inner)) :
    CondHeads source (conditional limit around room) := by
  intro t x
  rw [conditional]
  refine .advance ((bare_expression _ _ _ _ _).bind fun test => (hblock.stands _).bind fun yes => ?_)
  refine (bare_accept _ _ _).bind fun found => ?_
  have hheads : ∀ no, x ++ (Stmt.cond t.start.coordinate test yes no).heads =
      x ++ [t.start.coordinate] ++ yes.flatMap Stmt.heads ++ (Stmt.deepElse no).map Stmt.place := by
    intro no
    simp [Stmt.heads, Stmt.deep, Stmt.map_place_deepList, Stmt.place]
  cases found with
  | false => exact .pure (by rw [hheads]; simp [Stmt.deepElse])
  | true =>
    refine stands_here (fun place r h => ?_) fun t' => .peekLexeme ?_
    · -- Without a token there is no block.
      cases hnone : block limit around room [] with
      | error e =>
        have hfails : (do return Stmt.cond t.start.coordinate test yes (some (.block place (← block limit around room))) :
            Parser Stmt) [] = .error e := by
          show (block limit around room [] >>= _) = _
          rw [hnone]
          rfl
        cases h.symm.trans hfails
      | ok r => exact hblock.1 r hnone
    · split
      · cases room with
        | zero => exact .failHere _
        | succ room => exact (hchain room rfl t' _).bind fun no => .pure (by rw [hheads]; rfl)
      · refine (hblock.2 t' _).bind fun ss => .pure ?_
        rw [hheads, Stmt.deepElse, Stmt.deep, List.map_cons, Stmt.map_place_deepList]
        simp [Stmt.place]

theorem condHeads_conditional {around : Surroundings} {room : Nat}
    (hblock : ∀ inner ≤ room, BlockHeads source (block limit around inner)) :
    CondHeads source (conditional limit around room) := by
  induction room with
  | zero => exact condHeads_step (hblock 0 (Nat.le_refl _)) fun _ h => nomatch h
  | succ room ih =>
    refine condHeads_step (hblock _ (Nat.le_refl _)) fun inner h => ?_
    cases h
    exact ih fun inner hinner => hblock inner (Nat.le_succ_of_le hinner)

theorem stmtHeads_statement (around : Surroundings) (room : Nat) : StmtHeads source (statement limit around room) := by
  induction room using Nat.strongRecOn generalizing around with
  | ind room ih =>
    have hblock : ∀ (around : Surroundings), ∀ inner ≤ room, BlockHeads source (block limit around inner) := by
      intro around inner hinner
      refine blockHeads_block fun r hr => ih r ?_ _
      omega
    have hhere := fun around => hblock around room (Nat.le_refl _)
    have hexpr := bare_expression limit room 0
    intro x
    rw [statement]
    have hend : ∀ s : Stmt, Stands source (x ++ s.heads) (do discard (accept (.mark .semicolon)); return s)
        fun s => x ++ s.heads := fun s => ((bare_accept _).map _ _).bind fun _ => .pure rfl
    refine stands_here (fun _ _ h => ?_) fun t => .peekLexeme ?_
    · cases h
    split
    · exact (BeginsAt.failHere _).bind hend
    · exact (beginsAt_function (hhere _)).bind hend
    · refine .advance ((bare_expectName _ _).bind fun name => (bare_expect _ _ _).bind fun _ => ?_)
      exact (hexpr _ _).bind fun e => hend (.bind t.start.coordinate name e)
    · exact (condHeads_conditional (hblock around) t x).bind hend
    · refine .advance ((hexpr _ _).bind fun test => ((hhere _).stands _).bind fun body => ?_)
      have hheads : x ++ (Stmt.whileLoop t.start.coordinate test body).heads =
          x ++ [t.start.coordinate] ++ body.flatMap Stmt.heads := by
        simp [Stmt.heads, Stmt.deep, Stmt.map_place_deepList, Stmt.place]
      exact hheads ▸ hend _
    · refine .advance ((bare_expectName _ _).bind fun name => (bare_expect _ _ _).bind fun _ => ?_)
      refine (hexpr _ _).bind fun iterable => ((hhere _).stands _).bind fun body => ?_
      have hheads : x ++ (Stmt.forEach t.start.coordinate name iterable body).heads =
          x ++ [t.start.coordinate] ++ body.flatMap Stmt.heads := by
        simp [Stmt.heads, Stmt.deep, Stmt.map_place_deepList, Stmt.place]
      exact hheads ▸ hend _
    · have hvalue := names_returned ((@names_expression source limit room).1 0) t.start.coordinate.line
      exact .advance ((hvalue _).forget.bind fun e => hend (.giveBack t.start.coordinate e))
    · split
      · exact .advance (hend (.leave t.start.coordinate))
      · exact (BeginsAt.failHere _).bind hend
    · split
      · exact .advance (hend (.again t.start.coordinate))
      · exact (BeginsAt.failHere _).bind hend
    · exact BeginsAt.bind ((beginsAt_personality around).map (m := Stmt.personality t.start.coordinate) fun _ => rfl) hend
    · refine (((hhere around).2 t _).map fun ss => ?_).bind hend
      rw [Stmt.heads, Stmt.deep, List.map_cons, Stmt.map_place_deepList, List.append_assoc]
      rfl
    · exact BeginsAt.bind ((beginsAt_expression limit room 0).map (m := Stmt.expr t.start.coordinate) fun _ => rfl) hend

end

end Parser

/-- Where the statements of a program begin, there are tokens of its source, and each begins at one of its own. -/
theorem heads_sublist_of_parse {limit : Nat} {ts : List Token} {p : Program} (h : parse limit ts = .ok p) :
    ((Stmt.deepList p.statements).map Stmt.place).Sublist (ts.map (·.start.coordinate)) := by
  rw [Stmt.map_place_deepList]
  exact Parser.flatMap_sublist_of_parse (fun _ => Parser.stmtHeads_statement _ _) h

/-- No two statements of a program begin at the same place. -/
theorem heads_nodup_of_parse {source : String} {limit : Nat} {ts : List Token} {p : Program}
    (htokens : tokenize source = .ok ts) (h : parse limit ts = .ok p) :
    ((Stmt.deepList p.statements).map Stmt.place).Nodup :=
  (ordered_of_tokenize htokens).nodup.sublist (heads_sublist_of_parse h)

/-- A place says which statement of a program is meant. -/
theorem eq_of_place_eq {source : String} {limit : Nat} {ts : List Token} {p : Program}
    (htokens : tokenize source = .ok ts) (h : parse limit ts = .ok p) {s s' : Stmt}
    (hs : s ∈ Stmt.deepList p.statements) (hs' : s' ∈ Stmt.deepList p.statements) (hplace : s.place = s'.place) :
    s = s' :=
  List.inj_on_of_nodup_map (heads_nodup_of_parse htokens h) hs hs' hplace

end Persona
