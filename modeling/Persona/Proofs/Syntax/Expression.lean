import Persona.Proofs.Syntax.Spelling

/-! How expressions are read.

The lexemes of a spelling that suits an expression are read as the expression. The induction is
on the expression. It shows for each form what the parser has done behind it: behind a base it
is at calls and indexings, behind an operand at the operators, and at all minimums below the
strength of the expression they still go on there. -/
namespace Persona.Parser

/-! ### What may follow -/

/-- No call and no indexing follows. -/
def NoPostfix (more : List Lexeme) : Prop :=
  more.head? ≠ some (.mark .leftParen) ∧ more.head? ≠ some (.mark .leftBracket)

/-- What follows does not go on at this minimum. -/
structure Stops (minimum : Nat) (more : List Lexeme) : Prop where
  noPostfix : NoPostfix more
  weak : ∀ c, more.head?.bind Connective.ofLexeme? = some c → c.strength ≤ minimum

/-- What follows takes as a whole what has this strength, not a part of it. -/
structure Yields (strength : Nat) (more : List Lexeme) : Prop where
  noPostfix : NoPostfix more
  weak : ∀ c, more.head?.bind Connective.ofLexeme? = some c → c.leftMinimum < strength

variable {more : List Lexeme} {minimum strength : Nat}

theorem Stops.yields (h : Stops minimum more) (hlt : minimum < strength) : Yields strength more :=
  ⟨h.noPostfix, fun c hc => Nat.lt_of_le_of_lt (Nat.le_trans c.leftMinimum_le_strength (h.weak c hc)) hlt⟩

/-- Neither an operator nor a call or an indexing. -/
theorem Stops.of_none (hmore : NoPostfix more) (h : more.head?.bind Connective.ofLexeme? = none)
    (minimum : Nat) : Stops minimum more :=
  ⟨hmore, fun c hc => by rw [h] at hc; cases hc⟩

theorem Stops.mark (m : Mark) (hm : m ≠ .leftParen ∧ m ≠ .leftBracket)
    (h : Connective.ofLexeme? (.mark m) = none) (ls : List Lexeme) (minimum : Nat) :
    Stops minimum (.mark m :: ls) := by
  have hmore : NoPostfix (.mark m :: ls) :=
    ⟨fun hl => hm.1 (Lexeme.mark.inj (Option.some.inj hl)), fun hl => hm.2 (Lexeme.mark.inj (Option.some.inj hl))⟩
  exact .of_none hmore h minimum

theorem Stops.ofCloses {close : Mark} (hclose : close ≠ .leftParen ∧ close ≠ .leftBracket)
    (hnone : Connective.ofLexeme? (.mark close) = none) (hmore : Closes close more) (minimum : Nat) :
    Stops minimum more := by
  cases more with
  | nil => rcases hmore with h | h <;> cases h
  | cons l ls =>
    rcases hmore with h | h
    · cases h
      exact .mark .comma (by decide) rfl ls minimum
    · cases h
      exact .mark close hclose hnone ls minimum

/-! ### What the parser has done behind an expression -/

/-- Behind a base, or calls and indexings of one, it is at further ones. -/
def ReadsPrimary (limit : Nat) (ls : List Lexeme) (e : Expr) : Prop :=
  ∀ ⦃room : Nat⦄ ⦃more : List Lexeme⦄, ls.length ≤ room →
    Passes .any (primary (expression limit room 0)) ls more fun q => ∃ e' place bound,
      q = postfixes (expression limit room 0) place bound e' ∧ more.length ≤ bound.length ∧ e'.bare = e.bare

/-- It has read an operand. -/
def ReadsUnary (limit : Nat) (ls : List Lexeme) (e : Expr) : Prop :=
  ∀ ⦃room : Nat⦄ ⦃more : List Lexeme⦄, ls.length ≤ room → NoPostfix more →
    Passes .any (unary limit room) ls more (Gives fun e' => e'.bare = e.bare)

/-- The operators behind an operand. -/
def spine (limit room minimum : Nat) : Parser Expr := do
  let left ← unary limit room
  operators (expression limit room) minimum (← get) left

/-- It is at the operators behind the expression, whatever is less than its strength. -/
def ReadsSpine (limit : Nat) (ls : List Lexeme) (e : Expr) (strength : Nat) : Prop :=
  ∀ ⦃room minimum : Nat⦄ ⦃more : List Lexeme⦄, ls.length ≤ room → minimum < strength → Yields strength more →
    Passes .any (spine limit room minimum) ls more fun q => ∃ e' bound,
      q = operators (expression limit room) minimum bound e' ∧ more.length ≤ bound.length ∧ e'.bare = e.bare

/-- The lexemes are read as the expression, of this strength. -/
structure Reads (limit : Nat) (ls : List Lexeme) (e : Expr) (strength : Nat) : Prop where
  starts : ∃ l rest, ls = l :: rest ∧ l.startsExpression = true
  noSign : strength = 600 → ls.head? ≠ some (.mark .minus) ∧ ls.head? ≠ some (.mark .bang)
  primary : strength = 600 → ReadsPrimary limit ls e
  unary : 500 ≤ strength → ReadsUnary limit ls e
  spine : ReadsSpine limit ls e strength

variable {limit room : Nat} {ls ls' : List Lexeme} {e l r : Expr}

/-! ### Calls and indexings -/

theorem passes_postfixes_end (hmore : NoPostfix more) {expr : Parser Expr} {place : Coordinate}
    {bound : List Token} : Passes .any (postfixes expr place bound e) [] more (Gives (· = e)) := by
  cases bound with
  | nil => exact .done rfl
  | cons t bound =>
    refine passes_peekLexeme ?_
    rw [List.nil_append]
    split
    · next h => exact absurd h hmore.1
    · next h => exact absurd h hmore.2
    · exact .done rfl

theorem readsUnary_of_primary (hsign : ls.head? ≠ some (.mark .minus) ∧ ls.head? ≠ some (.mark .bang))
    (hls : ls ≠ []) (h : ReadsPrimary limit ls e) : ReadsUnary limit ls e := by
  intro room more hroom hmore
  rw [Parser.unary]
  refine passes_peekLexeme ?_
  rw [List.head?_append_of_ne_nil ls hls]
  split
  · next h => exact absurd h hsign.1
  · next h => exact absurd h hsign.2
  · refine (h hroom).behind ?_
    rintro _ ⟨e', place, bound, rfl, -, he'⟩
    refine (passes_postfixes_end hmore).imp ?_
    rintro _ ⟨a, rfl, rfl⟩
    exact ⟨_, he', rfl⟩

theorem readsSpine_of_unary (h : ReadsUnary limit ls e) : ReadsSpine limit ls e strength := by
  intro room minimum more hroom _ hmore
  refine (h hroom hmore.noPostfix).last fun e' he' => passes_get fun bound hbound => ?_
  exact .here ⟨e', bound, rfl, Nat.le_of_eq hbound.symm, he'⟩

theorem Reads.ofPrimary (hstarts : ∃ l rest, ls = l :: rest ∧ l.startsExpression = true)
    (hsign : ls.head? ≠ some (.mark .minus) ∧ ls.head? ≠ some (.mark .bang))
    (h : ReadsPrimary limit ls e) : Reads limit ls e 600 := by
  have hls : ls ≠ [] := by
    obtain ⟨l, rest, rfl, -⟩ := hstarts
    exact List.cons_ne_nil l rest
  have hunary := readsUnary_of_primary hsign hls h
  exact ⟨hstarts, fun _ => hsign, fun _ => h, fun _ => hunary, readsSpine_of_unary hunary⟩

/-! ### Whole expressions -/

theorem passes_operators_end (hmore : Stops minimum more) {operand : Nat → Parser Expr}
    {bound : List Token} : Passes .any (operators operand minimum bound e) [] more (Gives (· = e)) := by
  cases bound with
  | nil => exact .done rfl
  | cons t bound =>
    refine passes_peekLexeme ?_
    rw [List.nil_append]
    split
    · exact .done rfl
    · next c hc =>
      rw [if_pos (hmore.weak c hc)]
      exact .done rfl

/-- The whole expression is read where nothing that follows goes on. -/
theorem Reads.expression (h : Reads limit ls e strength) (hlt : minimum < strength) (hroom : ls.length < room)
    (hmore : Stops minimum more) :
    Passes .any (Parser.expression limit room minimum) ls more (Gives fun e' => e'.bare = e.bare) := by
  cases room with
  | zero => exact absurd hroom (Nat.not_lt_zero _)
  | succ room =>
    rw [Parser.expression]
    refine (h.spine (Nat.le_of_lt_succ hroom) hlt (hmore.yields hlt)).behind ?_
    rintro _ ⟨e', bound, rfl, -, he'⟩
    refine (passes_operators_end hmore).imp ?_
    rintro _ ⟨a, rfl, rfl⟩
    exact ⟨_, he', rfl⟩

/-- An expression as an item of a row. -/
theorem Reads.isItem (h : Reads limit ls e strength) (hpos : 0 < strength) {close : Mark}
    (hclose : Lexeme.startsExpression (.mark close) = false)
    (hnone : Connective.ofLexeme? (.mark close) = none) (hroom : ls.length < room) :
    IsItem .any close (Parser.expression limit room 0) ls fun e' => e'.bare = e.bare where
  opens := by
    obtain ⟨l, rest, hls, hstart⟩ := h.starts
    refine ⟨l, rest, hls, ?_⟩
    rintro rfl
    rw [hclose] at hstart
    cases hstart
  passes hmore := by
    refine h.expression hpos hroom (.ofCloses ⟨?_, ?_⟩ hnone hmore 0)
    · rintro rfl
      cases hclose
    · rintro rfl
      cases hclose

/-! ### Bases -/

theorem readsPrimary_of_base (h : ∀ {room more}, ls.length ≤ room →
    Passes .any (base (Parser.expression limit room 0)) ls more (Gives fun e' => e'.bare = e.bare)) :
    ReadsPrimary limit ls e := by
  intro room more hroom
  refine passes_place fun place => ?_
  refine (h hroom).last fun e' he' => passes_get fun bound hbound => ?_
  exact .here ⟨e', place, bound, rfl, Nat.le_of_eq hbound.symm, he'⟩

/-- Parentheses make a base of any expression. -/
theorem Reads.inParens (h : Reads limit ls e strength) (hpos : 0 < strength) :
    Reads limit (Spelling.inParens ls) e 600 := by
  refine .ofPrimary ⟨_, _, rfl, rfl⟩ ⟨nofun, nofun⟩ (readsPrimary_of_base fun {room more} hroom => ?_)
  simp only [Spelling.inParens, List.length_cons, List.length_append, List.length_nil] at hroom
  refine passes_peek fun start stop => passes_advance ?_
  have hstops : Stops 0 ([.mark .rightParen] ++ more) := .mark .rightParen (by decide) rfl _ 0
  refine (h.expression hpos (by omega) hstops).andThen fun e' he' => ?_
  exact (passes_expectClosing _).last fun _ _ => .done he'

theorem reads_identifier (i : Identifier) : Reads limit [.name i.name] (.identifier i) 600 := by
  refine .ofPrimary ⟨_, _, rfl, rfl⟩ ⟨nofun, nofun⟩ (readsPrimary_of_base fun _ => ?_)
  exact passes_peek fun start stop => passes_advance (.done rfl)

theorem reads_literal {σ : Spelling} {l : Literal} (hl : σ.Suits (.literal l)) :
    Reads limit [σ.literal l] (.literal l) 600 := by
  cases l with
  | number x =>
    refine .ofPrimary ⟨_, _, rfl, rfl⟩ ⟨nofun, nofun⟩ (readsPrimary_of_base fun _ => ?_)
    refine passes_peek fun start stop => ?_
    refine (passes_numberValue hl).last ?_
    rintro _ rfl
    exact .done rfl
  | bool b =>
    cases b with
    | _ =>
      refine .ofPrimary ⟨_, _, rfl, rfl⟩ ⟨nofun, nofun⟩ (readsPrimary_of_base fun _ => ?_)
      exact passes_peek fun start stop => passes_advance (.done rfl)
  | _ =>
    refine .ofPrimary ⟨_, _, rfl, rfl⟩ ⟨nofun, nofun⟩ (readsPrimary_of_base fun _ => ?_)
    exact passes_peek fun start stop => passes_advance (.done rfl)

/-! ### Rows of expressions -/

/-- The expression is spelled here so that it is read. -/
def ReadsAt (σ : Spelling) (limit : Nat) (place : Place) (e : Expr) : Prop :=
  ∃ strength, place.minimum < strength ∧ strength ≤ 600 ∧ Reads limit (σ.spell place e) e strength

variable {σ : Spelling}

theorem Reads.readsAt (h : Reads limit (σ.plain e) e e.strength) {place : Place} (hholds : σ.Holds place e) :
    ReadsAt σ limit place e := by
  unfold ReadsAt Spelling.spell Spelling.part
  by_cases hparens : σ.parens place e = true
  · rw [if_pos hparens]
    exact ⟨600, place.minimum_lt, Nat.le_refl 600, h.inParens e.strength_pos⟩
  · rw [if_neg hparens]
    exact ⟨e.strength, hholds.resolve_left hparens, e.strength_le, h⟩

theorem length_le_joined_of_mem {α : Type} (spell : α → List Lexeme) {x : α} {xs : List α} (hx : x ∈ xs) :
    (spell x).length ≤ (joined (xs.map spell)).length := by
  induction xs with
  | nil => cases hx
  | cons y ys ih =>
    cases ys with
    | nil =>
      rw [List.mem_singleton.1 hx]
      exact Nat.le_refl _
    | cons z zs =>
      have hlength : (joined ((y :: z :: zs).map spell)).length =
          (spell y).length + (1 + (joined ((z :: zs).map spell)).length) := by
        show (spell y ++ ([Lexeme.mark .comma] ++ joined ((z :: zs).map spell))).length = _
        rw [List.length_append, List.length_append, List.length_singleton]
      rcases List.mem_cons.1 hx with rfl | hx
      · omega
      · have := ih hx
        omega

/-- A row of expressions, as of arguments or elements. -/
theorem passes_expressions {es : List Expr} (hes : ∀ e ∈ es, ReadsAt σ limit .enclosed e) {close : Mark}
    (hclose : Lexeme.startsExpression (.mark close) = false)
    (hnone : Connective.ofLexeme? (.mark close) = none) (hcomma : close ≠ .comma) (missing : SyntaxFault)
    (hroom : (joined (es.map (σ.spell .enclosed))).length < room) :
    Passes .any (row close missing (Parser.expression limit room 0))
      (joined (es.map (σ.spell .enclosed)) ++ [.mark close]) more
      (Gives fun as => Expr.listBare as = Expr.listBare es) := by
  have hitems : ∀ e ∈ es, IsItem .any close (Parser.expression limit room 0) (σ.spell .enclosed e)
      fun a => a.bare = e.bare := by
    intro e he
    obtain ⟨strength, hpos, -, h⟩ := hes e he
    exact h.isItem hpos hclose hnone (Nat.lt_of_le_of_lt (length_le_joined_of_mem _ he) hroom)
  refine (passes_row hcomma missing hitems).imp ?_
  rintro _ ⟨as, has, rfl⟩
  exact ⟨as, Expr.listBare_eq has, rfl⟩

theorem reads_array {es : List Expr} (hes : ∀ e ∈ es, ReadsAt σ limit .enclosed e) :
    Reads limit (.mark .leftBracket :: (joined (es.map (σ.spell .enclosed)) ++ [.mark .rightBracket])) (.array es) 600 := by
  refine .ofPrimary ⟨_, _, rfl, rfl⟩ ⟨nofun, nofun⟩ (readsPrimary_of_base fun {room more} hroom => ?_)
  simp only [List.length_cons, List.length_append, List.length_nil] at hroom
  refine passes_peek fun start stop => passes_advance ?_
  refine (passes_expressions hes rfl rfl (by decide) _ (by omega)).last fun as has => .done ?_
  rw [Expr.bare, Expr.bare, has]

/-! ### Maps -/

theorem passes_mapEntry {x : String × Expr} (h : ReadsAt σ limit .enclosed x.2)
    (hroom : (σ.spell .enclosed x.2).length < room) (hmore : Stops 0 more) :
    Passes .any (mapEntry (Parser.expression limit room 0)) (σ.spellEntry x) more
      (Gives fun y => y.1 = x.1 ∧ y.2.bare = x.2.bare) := by
  obtain ⟨strength, hpos, -, h⟩ := h
  have hvalue : Passes .any (do
      expect (.mark .colon)
      return (x.1, ← Parser.expression limit room 0)) (.mark .colon :: σ.spell .enclosed x.2) more
      (Gives fun y => y.1 = x.1 ∧ y.2.bare = x.2.bare) := by
    refine passes_expect.first fun _ _ => ?_
    exact (h.expression hpos hroom hmore).last fun e' he' => .done ⟨rfl, he'⟩
  unfold mapEntry Spelling.spellEntry
  refine passes_peekLexeme ?_
  rcases σ.key_eq x.1 with hkey | hkey
  · rw [hkey]
    exact passes_advance hvalue
  · rw [hkey]
    exact passes_advance hvalue

theorem reads_map {es : List (String × Expr)} (hes : ∀ e ∈ es, ReadsAt σ limit .enclosed e.2) :
    Reads limit (.mark .leftBrace :: (joined (es.map σ.spellEntry) ++ [.mark .rightBrace])) (.map es) 600 := by
  refine .ofPrimary ⟨_, _, rfl, rfl⟩ ⟨nofun, nofun⟩ (readsPrimary_of_base fun {room more} hroom => ?_)
  simp only [List.length_cons, List.length_append, List.length_nil] at hroom
  have hitems : ∀ e ∈ es, IsItem .any .rightBrace (mapEntry (Parser.expression limit room 0)) (σ.spellEntry e)
      fun y => y.1 = e.1 ∧ y.2.bare = e.2.bare := by
    intro e he
    have hle := length_le_joined_of_mem σ.spellEntry he
    have hlength : (σ.spellEntry e).length = (σ.spell .enclosed e.2).length + 2 := rfl
    refine ⟨⟨_, _, rfl, ?_⟩, fun hmore => ?_⟩
    · rcases σ.key_eq e.1 with hkey | hkey <;> rw [hkey] <;> exact nofun
    · exact passes_mapEntry (hes e he) (by omega) (.ofCloses (by decide) rfl hmore 0)
  refine passes_peek fun start stop => passes_advance ?_
  refine (passes_body (by decide) _ hitems).last fun as has => .done ?_
  rw [Expr.bare, Expr.bare, Expr.entriesBare_eq has]

/-! ### Calls and indexings -/

/-- A call or an indexing goes on behind its base as it would behind any. -/
theorem reads_postfix {callee : Expr} (hcallee : ReadsAt σ limit .base callee) {l : Lexeme}
    (hnext : ∀ {room more base place t bound}, ls.length < room → base.bare = callee.bare →
      Passes .any (postfixes (Parser.expression limit room 0) place (t :: bound) base) (l :: ls) more fun q =>
        ∃ e', q = postfixes (Parser.expression limit room 0) place bound e' ∧ e'.bare = e.bare) :
    Reads limit (σ.spell .base callee ++ l :: ls) e 600 := by
  obtain ⟨strength, hlt, hle, h⟩ := hcallee
  obtain rfl : strength = 600 := Nat.le_antisymm hle hlt
  obtain ⟨first, rest, hspell, hstart⟩ := h.starts
  have hsign := h.noSign rfl
  rw [hspell] at hsign h ⊢
  refine .ofPrimary ⟨first, _, rfl, hstart⟩ hsign fun room more hroom => ?_
  simp only [List.length_append, List.length_cons] at hroom
  have hbase : (first :: rest).length ≤ room := by
    rw [List.length_cons]
    omega
  refine (h.primary rfl hbase).trans ?_
  rintro _ ⟨base, place, bound, rfl, hbound, hbare⟩
  obtain ⟨t, bound, rfl⟩ := List.exists_cons_of_length_pos (Nat.lt_of_lt_of_le (Nat.zero_lt_succ _) hbound)
  simp only [List.length_append, List.length_cons] at hbound
  refine (hnext (by omega) hbare).imp ?_
  rintro _ ⟨e', rfl, he'⟩
  exact ⟨e', place, bound, rfl, by omega, he'⟩

theorem reads_call {place : Coordinate} {callee : Expr} {es : List Expr}
    (hcallee : ReadsAt σ limit .base callee) (hes : ∀ e ∈ es, ReadsAt σ limit .enclosed e) :
    Reads limit (σ.spell .base callee ++
      .mark .leftParen :: (joined (es.map (σ.spell .enclosed)) ++ [.mark .rightParen])) (.call place callee es) 600 := by
  refine reads_postfix hcallee fun {room more base place t bound} hroom hbase => ?_
  simp only [List.length_append, List.length_cons, List.length_nil] at hroom
  refine passes_peekLexeme (passes_advance ?_)
  refine (passes_expressions hes rfl rfl (by decide) _ (by omega)).last fun as has => .here ⟨_, rfl, ?_⟩
  rw [Expr.bare, Expr.bare, hbase, has]

theorem reads_index {object key : Expr} (hobject : ReadsAt σ limit .base object) (hkey : ReadsAt σ limit .enclosed key) :
    Reads limit (σ.spell .base object ++ .mark .leftBracket :: (σ.spell .enclosed key ++ [.mark .rightBracket]))
      (.index object key) 600 := by
  refine reads_postfix hobject fun {room more base place t bound} hroom hbase => ?_
  simp only [List.length_append, List.length_cons, List.length_nil] at hroom
  obtain ⟨strength, hpos, -, hkey⟩ := hkey
  have hstops : Stops 0 ([.mark .rightBracket] ++ more) := .mark .rightBracket (by decide) rfl _ 0
  refine passes_peekLexeme (passes_advance ?_)
  refine (hkey.expression hpos (by omega) hstops).andThen fun key' hkey' => ?_
  refine (passes_expectClosing _).last fun _ _ => .here ⟨_, rfl, ?_⟩
  rw [Expr.bare, Expr.bare, hbase, hkey']

/-! ### Operators -/

theorem reads_unary {op : UnaryOp} (h : ReadsAt σ limit .operand e) :
    Reads limit (.mark op.mark :: σ.spell .operand e) (.unary op e) 500 := by
  obtain ⟨strength, hlt, -, h⟩ := h
  have hunary : ReadsUnary limit (.mark op.mark :: σ.spell .operand e) (.unary op e) := by
    intro room more hroom hmore
    rw [List.length_cons] at hroom
    obtain ⟨room, rfl⟩ := Nat.exists_eq_succ_of_ne_zero (n := room) (by omega)
    have hoperand : Passes .any (operand limit (room + 1)) (.mark op.mark :: σ.spell .operand e) more
        (Gives fun e' => e'.bare = e.bare) := by
      rw [operand]
      exact passes_advance (h.unary hlt (Nat.le_of_succ_le_succ hroom) hmore)
    rw [Parser.unary]
    refine passes_peekLexeme ?_
    cases op with
    | _ =>
      refine hoperand.last fun e' he' => .done ?_
      rw [Expr.bare, Expr.bare, he']
  refine ⟨⟨_, _, rfl, ?_⟩, fun h => absurd h (by decide), fun h => absurd h (by decide), fun _ => hunary,
    readsSpine_of_unary hunary⟩
  cases op <;> rfl

/-- How the operators go on once a right operand is read. -/
def continued (limit room minimum : Nat) (bound : List Token) (place : Coordinate) (right : Expr) :
    Connective → Expr → Parser Expr
  | .binary op, left => operators (Parser.expression limit room) minimum bound (.binary op left right)
  | .assign, .identifier target => operators (Parser.expression limit room) minimum bound (.assign target right)
  | .assign, _ => failAt place .invalidTarget

/-- The right operand is read, and the operators go on behind it. -/
theorem passes_operator {c : Connective} {l : Lexeme} (hl : Connective.ofLexeme? l = some c)
    (hlt : minimum < c.strength) (hr : Reads limit ls r strength) (hright : c.rightMinimum < strength)
    (hroom : ls.length < room) (hmore : Stops c.rightMinimum more) {t : Token} {bound : List Token} {left : Expr}
    {K : Parser Expr → Prop}
    (hK : ∀ place right, right.bare = r.bare → K (continued limit room minimum bound place right c left)) :
    Passes .any (operators (Parser.expression limit room) minimum (t :: bound) left) (l :: ls) more K := by
  refine passes_peekLexeme ?_
  simp only [List.cons_append, List.head?_cons, Option.bind_some, hl]
  rw [if_neg (Nat.not_le.2 hlt)]
  refine passes_place fun place => passes_advance ?_
  exact (hr.expression hright hroom hmore).last fun right hbare => .here (hK place right hbare)

theorem Yields.stops {c : Connective} (h : Yields c.strength more) : Stops c.rightMinimum more :=
  ⟨h.noPostfix, fun d hd => Connective.strength_le_rightMinimum (h.weak d hd)⟩

/-- An operator yields to its left operand, if that stands where it should. -/
theorem Yields.ofConnective {c : Connective} {l : Lexeme} (hl : Connective.ofLexeme? l = some c)
    (hlt : c.leftMinimum < strength) : Yields strength (l :: ls) := by
  refine ⟨⟨?_, ?_⟩, fun d hd => ?_⟩
  · rintro h
    cases Option.some.inj h
    cases hl
  · rintro h
    cases Option.some.inj h
    cases hl
  · obtain rfl : c = d := Option.some.inj (hl.symm.trans hd)
    exact hlt

theorem Connective.ofLexeme?_mark (op : BinaryOp) :
    Connective.ofLexeme? (.mark op.mark) = some (.binary op) := by
  cases op <;> rfl

theorem reads_binary {op : BinaryOp} (hl : ReadsAt σ limit (.left (.binary op)) l)
    (hr : ReadsAt σ limit (.right (.binary op)) r) :
    Reads limit (σ.spell (.left (.binary op)) l ++
      .mark op.mark :: σ.spell (.right (.binary op)) r) (.binary op l r)
      (Connective.binary op).strength := by
  obtain ⟨sl, hsl, -, hl⟩ := hl
  obtain ⟨sr, hsr, -, hr⟩ := hr
  have hmark := Connective.ofLexeme?_mark op
  have hweak : (Connective.binary op).strength < 500 := by
    cases op <;> exact Nat.le_of_ble_eq_true rfl
  obtain ⟨first, rest, hspell, hstart⟩ := hl.starts
  refine ⟨⟨first, _, by rw [hspell]; rfl, hstart⟩, fun h => ?_, fun h => ?_, fun h => ?_, ?_⟩
  · omega
  · omega
  · omega
  intro room minimum more hroom hlt hmore
  simp only [List.length_append, List.length_cons] at hroom
  have hminimum : minimum < sl := Nat.lt_of_le_of_lt (Connective.le_leftMinimum hlt) hsl
  refine (hl.spine (by omega) hminimum (.ofConnective hmark hsl)).trans ?_
  rintro _ ⟨left, bound, rfl, hbound, hleft⟩
  obtain ⟨t, bound, rfl⟩ := List.exists_cons_of_length_pos (Nat.lt_of_lt_of_le (Nat.zero_lt_succ _) hbound)
  have hbound : (_ ++ more).length ≤ bound.length := Nat.le_of_succ_le_succ hbound
  rw [List.length_append] at hbound
  refine passes_operator hmark hlt hr hsr (by omega) hmore.stops fun place right hright => ?_
  refine ⟨.binary op left right, bound, rfl, by omega, ?_⟩
  rw [Expr.bare, Expr.bare, hleft, hright]

theorem eq_identifier_of_bare {i : Identifier} (h : e.bare = (Expr.identifier i).bare) :
    ∃ place, e = .identifier ⟨i.name, place⟩ := by
  cases e with
  | identifier j =>
    obtain ⟨name, place⟩ := j
    rw [Expr.bare, Expr.bare] at h
    cases h
    exact ⟨place, rfl⟩
  | _ =>
    rw [Expr.bare, Expr.bare] at h
    cases h

theorem reads_assign {target : Identifier} (hr : ReadsAt σ limit (.right .assign) r) :
    Reads limit (.name target.name :: .mark .equal :: σ.spell (.right .assign) r)
      (.assign target r) Connective.assign.strength := by
  obtain ⟨sr, hsr, -, hr⟩ := hr
  refine ⟨⟨_, _, rfl, rfl⟩, fun h => absurd h (by decide), fun h => absurd h (by decide),
    fun h => absurd h (by decide), ?_⟩
  intro room minimum more hroom hlt hmore
  simp only [List.length_cons] at hroom
  have hequal : Connective.ofLexeme? (.mark .equal) = some .assign := rfl
  show Passes _ _ ([.name target.name] ++ _) _ _
  refine ((reads_identifier target).spine (by rw [List.length_singleton]; omega) (Nat.lt_trans hlt (by decide))
    (.ofConnective hequal (by decide))).trans ?_
  rintro _ ⟨left, bound, rfl, hbound, hleft⟩
  obtain ⟨place, rfl⟩ := eq_identifier_of_bare hleft
  obtain ⟨t, bound, rfl⟩ := List.exists_cons_of_length_pos (Nat.lt_of_lt_of_le (Nat.zero_lt_succ _) hbound)
  have hbound : (_ ++ more).length ≤ bound.length := Nat.le_of_succ_le_succ hbound
  rw [List.length_append] at hbound
  refine passes_operator hequal hlt hr hsr (by omega) hmore.stops fun place' right hright => ?_
  refine ⟨.assign ⟨target.name, place⟩ right, bound, rfl, by omega, ?_⟩
  rw [Expr.bare, Expr.bare, hright]

/-! ### Expressions -/

mutual

/-- A spelling that suits an expression is read as it. -/
theorem reads_plain : ∀ (e : Expr), σ.Suits e → Reads limit (σ.plain e) e e.strength
  | .literal l, h => reads_literal h
  | .identifier i, _ => reads_identifier i
  | .binary op l r, ⟨⟨hl, hsl⟩, hr, hsr⟩ =>
    reads_binary ((reads_plain l hsl).readsAt hl) ((reads_plain r hsr).readsAt hr)
  | .unary op e, ⟨he, hs⟩ => reads_unary ((reads_plain e hs).readsAt he)
  | .assign target value, ⟨hv, hs⟩ => reads_assign ((reads_plain value hs).readsAt hv)
  | .call place callee arguments, ⟨⟨hf, hs⟩, hargs⟩ => by
    rw [Spelling.plain, Spelling.rows_eq]
    exact reads_call ((reads_plain callee hs).readsAt hf) (readsAt_all arguments hargs)
  | .array elements, h => by
    rw [Spelling.plain, Spelling.rows_eq]
    exact reads_array (readsAt_all elements h)
  | .map entries, h => by
    rw [Spelling.plain, Spelling.entryRows_eq]
    exact reads_map (readsAt_entries entries h)
  | .index object key, ⟨⟨ho, hs⟩, hk⟩ => by
    have hkey : ReadsAt σ limit .enclosed key := (reads_plain key hk).readsAt (.inr key.strength_pos)
    exact reads_index ((reads_plain object hs).readsAt ho) hkey
termination_by structural e => e

theorem readsAt_all : ∀ (es : List Expr), σ.SuitsAll es → ∀ e ∈ es, ReadsAt σ limit .enclosed e
  | [], _ => fun _ he => absurd he List.not_mem_nil
  | e :: es, ⟨he, hes⟩ => List.forall_mem_cons.2
    ⟨(reads_plain e he).readsAt (.inr e.strength_pos), readsAt_all es hes⟩
termination_by structural es => es

theorem readsAt_entries : ∀ (es : List (String × Expr)), σ.SuitsEntries es → ∀ e ∈ es, ReadsAt σ limit .enclosed e.2
  | [], _ => fun _ he => absurd he List.not_mem_nil
  | (_, e) :: es, ⟨he, hes⟩ => List.forall_mem_cons.2
    ⟨(reads_plain e he).readsAt (.inr e.strength_pos), readsAt_entries es hes⟩
termination_by structural es => es

end

end Persona.Parser
