import Persona.Proofs.Syntax.Block
import Persona.Proofs.Syntax.Canonical

/-! How statements are read.

The lexemes of a sound statement are read as the statement, in as much room as there are
lexemes. What `return` gives back has to begin on its line, so the tokens are aligned. -/
namespace Persona

/-- What a `return` gives back begins on its line. -/
def Layout.aligned : Layout := ⟨Aligned, Aligned.suffix⟩

namespace Parser

variable {L : Layout} {limit room : Nat} {more ls : List Lexeme} {around : Surroundings}

/-! ### Expressions in statements -/

theorem readsAt_of_sound {e : Expr} (he : e.Sound) : ReadsAt .canonical limit .enclosed e :=
  (reads_plain e (Spelling.suits_canonical e he)).readsAt (.inr e.strength_pos)

/-- An expression and what does not go on with it. -/
theorem passes_expression {e : Expr} (he : e.Sound) (hroom : e.lexemes.length < room) (hmore : Stops 0 more) :
    Passes L (expression limit room 0) e.lexemes more (Gives fun e' => e'.bare = e.bare) := by
  obtain ⟨strength, hpos, -, h⟩ : ReadsAt .canonical limit .enclosed e := readsAt_of_sound he
  exact (h.expression hpos hroom hmore).inAny

theorem stops_semicolon (more : List Lexeme) : Stops 0 (.mark .semicolon :: more) := .mark .semicolon (by decide) rfl more 0

theorem stops_leftBrace (more : List Lexeme) : Stops 0 (.mark .leftBrace :: more) := .mark .leftBrace (by decide) rfl more 0

/-! ### Names, parameters and traits -/

theorem passes_expectType {type : String} (htype : Persona.IsType type) :
    Passes L expectType [.ofWord type] more (Gives (· = type)) := by
  obtain rfl | rfl | ⟨-, hname⟩ := htype
  · exact passes_peekLexeme (passes_advance (.done rfl))
  · exact passes_peekLexeme (passes_advance (.done rfl))
  · rw [Lexeme.ofWord, hname]
    exact passes_peekLexeme passes_expectName

theorem passes_param {p : Param} (hp : p.Sound) (hmore : more.head? ≠ some (.mark .colon)) :
    Passes L param p.lexemes more (Gives (p = ·)) := by
  obtain ⟨name, type⟩ := p
  refine passes_expectName.first ?_
  rintro _ rfl
  cases type with
  | none =>
    refine (passes_accept_not hmore).last ?_
    rintro _ rfl
    exact .done rfl
  | some type =>
    refine passes_accept.first ?_
    rintro _ rfl
    refine ((passes_expectType (hp.2 type rfl)).map (R := (· = some type)) fun t ht => congrArg some ht).last ?_
    rintro _ rfl
    exact .done rfl

theorem isItem_param {p : Param} (hp : p.Sound) : IsItem L .rightParen param p.lexemes (p = ·) where
  opens := ⟨_, _, rfl, nofun⟩
  passes hmore := by
    refine passes_param hp ?_
    obtain h | h := hmore
    · rw [h]
      exact nofun
    · rw [h]
      exact nofun

theorem passes_traitValue {x : Float} (hx : Decimal.isFinite x = true) :
    Passes L traitValue (numberLexemes x) more (Gives fun y => Decimal.oneZero y = Decimal.oneZero x) := by
  unfold traitValue numberLexemes
  split
  · next hneg =>
    refine passes_accept.first ?_
    rintro _ rfl
    refine passes_peekLexeme ?_
    refine (passes_numberValue (Decimal.parse?_number (Decimal.plain_neg hx hneg))).last ?_
    rintro _ rfl
    refine .done ?_
    rw [if_pos rfl, Decimal.negate_twice]
  · next hneg =>
    show Passes L _ ([] ++ _) _ _
    refine (passes_accept_not fun h => by cases h).andThen ?_
    rintro _ rfl
    refine passes_peekLexeme ?_
    refine (passes_numberValue (Decimal.parse?_number_of_finite hx (Bool.eq_false_iff.2 hneg))).last ?_
    rintro _ rfl
    exact .done (Decimal.oneZero_oneZero x)

theorem ofName?_name (t : Trait) : Trait.ofName? t.name = some t := by cases t <;> decide

theorem passes_traitEntry {e : TraitEntry} (he : e.Sound) :
    Passes L traitEntry e.lexemes more (Gives fun e' => e'.bare = e.bare) := by
  refine passes_place fun place => passes_expectName.first ?_
  rintro _ rfl
  rw [ofName?_name]
  refine passes_expect.first fun _ _ => ?_
  refine (passes_traitValue he).last fun y hy => .done ?_
  rw [TraitEntry.bare, TraitEntry.bare, hy]

theorem map_bare_eq {es as : List TraitEntry} (h : List.Forall₂ (fun e a => a.bare = e.bare) es as) :
    as.map TraitEntry.bare = es.map TraitEntry.bare := by
  induction h with
  | nil => rfl
  | cons h _ ih => rw [List.map_cons, List.map_cons, h, ih]

theorem isItem_traitEntry {e : TraitEntry} (he : e.Sound) :
    IsItem L .rightBrace traitEntry e.lexemes fun e' => e'.bare = e.bare where
  opens := ⟨_, _, rfl, nofun⟩
  passes _ := passes_traitEntry he

/-! ### Blocks -/

/-- The statement is read where it stands, and a conditional also behind `else`. -/
structure ReadsStatement (limit : Nat) (around : Surroundings) (s : Stmt) : Prop where
  isStatement : ∀ ⦃room : Nat⦄, s.lexemes.length ≤ room →
    IsStatement .aligned (statement limit around room) s.lexemes fun s' => s'.bare = s.bare
  conditional : ∀ ⦃place test yes no⦄, s = .cond place test yes no → ∀ ⦃room : Nat⦄ ⦃more : List Lexeme⦄,
    s.lexemes.length ≤ room → Ends more → ∀ place',
      Passes .aligned (conditional limit around room place') s.lexemes more (Gives fun s' => s'.bare = s.bare)

theorem length_le_listLexemes {s : Stmt} {ss : List Stmt} (hs : s ∈ ss) :
    s.lexemes.length ≤ (Stmt.listLexemes ss).length := by
  induction ss with
  | nil => cases hs
  | cons t ss ih =>
    rw [Stmt.listLexemes, List.length_append]
    rcases List.mem_cons.1 hs with rfl | hs
    · exact Nat.le_add_right ..
    · exact Nat.le_trans (ih hs) (Nat.le_add_left ..)

theorem length_le_flatMap {ss : List Stmt} (hss : ∀ s ∈ ss, ∃ l rest, s.lexemes = l :: rest ∧ Begins l) :
    ss.length ≤ (ss.flatMap Stmt.lexemes).length := by
  induction ss with
  | nil => exact Nat.le_refl 0
  | cons s ss ih =>
    obtain ⟨⟨l, rest, hs, -⟩, hss⟩ := List.forall_mem_cons.1 hss
    rw [List.flatMap_cons, List.length_append, hs, List.length_cons, List.length_cons]
    have := ih hss
    omega

theorem passes_block {ss : List Stmt} (hss : ∀ s ∈ ss, ReadsStatement limit ⟨true, around.inLoop⟩ s)
    (hroom : (Stmt.inBraces (Stmt.listLexemes ss)).length ≤ room) :
    Passes .aligned (block limit around room) (Stmt.inBraces (Stmt.listLexemes ss)) more
      (Gives fun ss' => Stmt.listBare ss' = Stmt.listBare ss) := by
  simp only [Stmt.inBraces, List.length_cons, List.length_append, List.length_nil] at hroom
  obtain ⟨room, rfl⟩ := Nat.exists_eq_succ_of_ne_zero (n := room) (by omega)
  have hitems : ∀ s ∈ ss, IsStatement .aligned (statement limit ⟨true, around.inLoop⟩ room) s.lexemes
      fun s' => s'.bare = s.bare := by
    intro s hs
    have hlength := length_le_listLexemes hs
    exact (hss s hs).isStatement (by omega)
  have hcount : ss.length ≤ (Stmt.listLexemes ss).length := by
    rw [Stmt.listLexemes_eq]
    exact length_le_flatMap fun s hs => (hitems s hs).begins
  rw [block]
  refine passes_expect.first fun _ _ => ?_
  refine passes_get fun bound hbound => ?_
  rw [List.length_append, List.length_append] at hbound
  rw [Stmt.listLexemes_eq]
  refine (passes_statements hitems (.inr ⟨rfl, more, rfl⟩) (by omega)).andThen ?_
  rintro _ ⟨new, rfl, hnew⟩
  exact (passes_expectClosing _).last fun _ _ => .done (Stmt.listBare_eq hnew)

/-! ### Functions -/

theorem passes_function {name : String} {params : List Param} {returnType : Option String} {body : List Stmt}
    (hparams : ∀ p ∈ params, p.Sound) (htype : ∀ type ∈ returnType, Persona.IsType type) {place : Coordinate}
    (hbody : ∀ s ∈ body, ReadsStatement limit ⟨true, false⟩ s)
    (hroom : (Stmt.inBraces (Stmt.listLexemes body)).length ≤ room) :
    Passes .aligned (function (block limit ⟨around.inBlock, false⟩ room) place)
      (.keyword .fnKey :: .name name :: .mark .leftParen ::
        (joined (params.map Param.lexemes) ++ [.mark .rightParen] ++
          (Stmt.resultLexemes returnType ++ Stmt.inBraces (Stmt.listLexemes body)))) more
      (Gives fun d => (Stmt.function d).bare = (Stmt.function ⟨.start, name, params, returnType, body⟩).bare) := by
  refine passes_advance (passes_expectName.first ?_)
  rintro name rfl
  refine passes_expect.first fun _ _ => ?_
  refine (passes_body (by decide) _ fun p hp => isItem_param (hparams p hp)).andThen fun params' hparams' => ?_
  obtain rfl : params = params' := List.forall₂_eq_eq_eq ▸ hparams'
  have hrest : ∀ returnType : Option String, Passes .aligned
      (do return ⟨place, name, params, returnType, ← block limit ⟨around.inBlock, false⟩ room⟩)
      (Stmt.inBraces (Stmt.listLexemes body)) more
      (Gives fun d => (Stmt.function d).bare = (Stmt.function ⟨.start, name, params, returnType, body⟩).bare) := by
    intro returnType
    refine (passes_block hbody hroom).last fun body' hbody' => .done ?_
    rw [Stmt.bare, Stmt.bare, hbody']
  cases returnType with
  | none =>
    refine (passes_accept_not fun h => by cases h).andThen ?_
    rintro _ rfl
    exact hrest none
  | some type =>
    refine passes_accept.first ?_
    rintro _ rfl
    refine ((passes_expectType (htype type rfl)).map (R := (· = some type)) fun t ht => congrArg some ht).first ?_
    rintro _ rfl
    exact hrest (some type)

/-! ### Conditionals -/

/-- What is done behind the first block of a conditional. -/
def alternative (limit : Nat) (around : Surroundings) (room : Nat) (place : Coordinate) (test : Expr)
    (yes : List Stmt) : Parser Stmt := do
  if ← accept (.keyword .elseKey) then
    let place' ← here
    if (← peekLexeme) = some (.keyword .ifKey) then
      match room with
      | 0 => failHere (.nestingTooDeep limit)
      | room + 1 => return .cond place test yes (some (← conditional limit around room place'))
    else return .cond place test yes (some (.block place' (← block limit around room)))
  else return .cond place test yes none

theorem conditional_eq (place : Coordinate) :
    conditional limit around room place = (do
      advance
      let test ← expression limit room 0
      let yes ← block limit around room
      alternative limit around room place test yes) := by
  rw [conditional]
  cases room <;> rfl

/-- What stands behind the first block is read as this. -/
def ReadsElse (limit : Nat) (around : Surroundings) (no : Option Stmt) : Prop :=
  ∀ ⦃room : Nat⦄ ⦃more : List Lexeme⦄ ⦃place : Coordinate⦄ ⦃test : Expr⦄ ⦃yes : List Stmt⦄,
    (Stmt.elseLexemes no).length ≤ room → Ends more →
      Passes .aligned (alternative limit around room place test yes) (Stmt.elseLexemes no) more
        (Gives fun s => ∃ no', s = .cond place test yes no' ∧ Stmt.elseBare no' = Stmt.elseBare no)

theorem readsElse_none : ReadsElse limit around none := by
  intro room more place test yes _ hmore
  refine (passes_accept_not hmore.2).last ?_
  rintro _ rfl
  exact .done ⟨none, rfl, rfl⟩

theorem readsElse_block {place' : Coordinate} {body : List Stmt}
    (hbody : ∀ s ∈ body, ReadsStatement limit ⟨true, around.inLoop⟩ s) :
    ReadsElse limit around (some (.block place' body)) := by
  intro room more place test yes hroom _
  refine passes_accept.first ?_
  rintro _ rfl
  refine passes_place fun place' => passes_peekLexeme ?_
  rw [if_neg fun h => by cases h]
  refine (passes_block hbody (Nat.le_of_succ_le hroom)).last fun body' hbody' => .done ⟨_, rfl, ?_⟩
  rw [Stmt.elseBare, Stmt.elseBare, Stmt.bare, Stmt.bare, hbody']

theorem readsElse_cond {place' : Coordinate} {test' : Expr} {yes' : List Stmt} {no' : Option Stmt}
    (h : ReadsStatement limit around (.cond place' test' yes' no')) :
    ReadsElse limit around (some (.cond place' test' yes' no')) := by
  intro room more place test yes hroom hmore
  obtain ⟨room, rfl⟩ := Nat.exists_eq_succ_of_ne_zero (Nat.ne_zero_of_lt hroom)
  refine passes_accept.first ?_
  rintro _ rfl
  refine passes_place fun place => passes_peekLexeme ?_
  have hhead : ((Stmt.cond place' test' yes' no').lexemes ++ more).head? = some (.keyword .ifKey) := rfl
  rw [if_pos hhead]
  refine (h.conditional rfl (Nat.le_of_succ_le_succ hroom) hmore place).last fun s hs => .done ⟨_, rfl, ?_⟩
  rw [Stmt.elseBare, Stmt.elseBare, hs]

theorem passes_conditional {test : Expr} {yes : List Stmt} {no : Option Stmt} (htest : test.Sound)
    (hyes : ∀ s ∈ yes, ReadsStatement limit ⟨true, around.inLoop⟩ s) (hno : ReadsElse limit around no)
    (hroom : (Stmt.cond .start test yes no).lexemes.length ≤ room) (hmore : Ends more) (place : Coordinate) :
    Passes .aligned (conditional limit around room place) (Stmt.cond .start test yes no).lexemes more
      (Gives fun s => s.bare = (Stmt.cond .start test yes no).bare) := by
  simp only [Stmt.lexemes, List.length_cons, List.length_append] at hroom
  rw [conditional_eq]
  refine passes_advance ?_
  refine (passes_expression htest (by omega) (stops_leftBrace _)).andThen fun test' htest' => ?_
  refine (passes_block hyes (by omega)).andThen fun yes' hyes' => (hno (by omega) hmore).imp ?_
  rintro _ ⟨_, ⟨no', rfl, hno'⟩, rfl⟩
  refine ⟨_, ?_, rfl⟩
  simp only [Stmt.bare, htest', hyes', hno']

/-! ### Statements -/

/-- A semicolon may stand behind a statement. -/
theorem passes_semicolon {s : Stmt} {Q : Stmt → Prop} (hs : Q s) :
    Passes L (do discard (accept (.mark .semicolon)); return s) [.mark .semicolon] more (Gives Q) :=
  (passes_accept.map (R := fun _ => True) fun _ _ => trivial).last fun _ _ => .done hs

theorem passes_noSemicolon {s : Stmt} {Q : Stmt → Prop} (hmore : Ends more) (hs : Q s) :
    Passes L (do discard (accept (.mark .semicolon)); return s) [] more (Gives Q) :=
  ((passes_accept_not hmore.1).map (R := fun _ => True) fun _ _ => trivial).last fun _ _ => .done hs

/-- Where no map is in front, no brace is. -/
theorem head_lexemes : ∀ (e : Expr), e.opensBrace = false → e.lexemes.head? ≠ some (.mark .leftBrace)
  | .literal (.number _), _ | .literal (.string _), _ | .literal (.bool true), _ | .literal (.bool false), _
  | .literal .null, _ | .identifier _, _ | .binary .., _ | .unary .., _ | .assign .., _ | .array _, _ => nofun
  | .map _, h => nomatch h
  | .call _ callee arguments, h => by
    obtain ⟨l, rest, hl⟩ := List.exists_cons_of_ne_nil callee.lexemes_ne_nil
    have hhead := head_lexemes callee h
    rw [hl] at hhead
    rw [Expr.lexemes_call, hl]
    exact hhead
  | .index object key, h => by
    obtain ⟨l, rest, hl⟩ := List.exists_cons_of_ne_nil object.lexemes_ne_nil
    have hhead := head_lexemes object h
    rw [hl] at hhead
    rw [Expr.lexemes_index, hl]
    exact hhead
termination_by structural e => e

theorem starts_of_sound {e : Expr} (he : e.Sound) : ∃ l rest, e.lexemes = l :: rest ∧ l.startsExpression = true := by
  obtain ⟨strength, -, -, h⟩ : ReadsAt .canonical 0 .enclosed e := readsAt_of_sound he
  exact h.starts

/-- What a statement begins with, so that it is read as a statement of its own. -/
theorem begins_of_sound {s : Stmt} (hs : s.Sound around) : ∃ l rest, s.lexemes = l :: rest ∧ Begins l := by
  cases s with
  | expr place e =>
    obtain ⟨l, rest, hl, hstart⟩ := starts_of_sound hs.2
    refine ⟨l, rest ++ [.mark .semicolon], ?_, ?_⟩
    · rw [Stmt.lexemes, hl]
      rfl
    · refine ⟨?_, ?_, ?_⟩
      all_goals
        rintro rfl
        cases hstart
  | function d => cases d with | _ => exact ⟨_, _, rfl, nofun, nofun, nofun⟩
  | giveBack place e => cases e with | _ => exact ⟨_, _, rfl, nofun, nofun, nofun⟩
  | _ => exact ⟨_, _, rfl, nofun, nofun, nofun⟩

theorem reads_bind {place : Coordinate} {name : String} {value : Expr} (hs : (Stmt.bind place name value).Sound around) :
    ReadsStatement limit around (.bind place name value) := by
  refine ⟨fun room hroom => ⟨begins_of_sound hs, fun {more} hmore => ?_⟩, nofun⟩
  simp only [Stmt.lexemes, List.length_cons, List.length_append, List.length_nil] at hroom
  rw [statement]
  refine passes_place fun place => passes_peekLexeme (passes_advance (passes_expectName.first ?_))
  rintro name rfl
  refine passes_expect.first fun _ _ => ?_
  refine (passes_expression hs.2 (by omega) (stops_semicolon _)).andThen fun value' hvalue => passes_semicolon ?_
  rw [Stmt.bare, Stmt.bare, hvalue]

theorem reads_function {place : Coordinate} {name : String} {params : List Param} {returnType : Option String}
    {body : List Stmt} (hs : (Stmt.function ⟨place, name, params, returnType, body⟩).Sound around)
    (hbody : ∀ s ∈ body, ReadsStatement limit ⟨true, false⟩ s) :
    ReadsStatement limit around (.function ⟨place, name, params, returnType, body⟩) := by
  refine ⟨fun room hroom => ⟨begins_of_sound hs, fun {more} hmore => ?_⟩, nofun⟩
  simp only [Stmt.lexemes, List.length_cons, List.length_append, List.length_nil] at hroom
  rw [statement]
  refine passes_place fun place => passes_peekLexeme ?_
  obtain ⟨-, hparams, htype, -⟩ := hs
  refine ((passes_function hparams htype hbody (by omega)).map (R := fun s => s.bare = _) fun d hd => hd).last ?_
  exact fun s hs => passes_noSemicolon hmore hs

theorem reads_cond {place : Coordinate} {test : Expr} {yes : List Stmt} {no : Option Stmt}
    (hs : (Stmt.cond place test yes no).Sound around) (hyes : ∀ s ∈ yes, ReadsStatement limit ⟨true, around.inLoop⟩ s)
    (hno : ReadsElse limit around no) : ReadsStatement limit around (.cond place test yes no) := by
  have hcond : ∀ ⦃room : Nat⦄ ⦃more : List Lexeme⦄, (Stmt.cond place test yes no).lexemes.length ≤ room →
      Ends more → ∀ place', Passes .aligned (conditional limit around room place')
        (Stmt.cond place test yes no).lexemes more (Gives fun s => s.bare = (Stmt.cond place test yes no).bare) :=
    fun room more hroom hmore place' => passes_conditional hs.1 hyes hno hroom hmore place'
  refine ⟨fun room hroom => ⟨begins_of_sound hs, fun {more} hmore => ?_⟩, fun _ _ _ _ _ => hcond⟩
  rw [statement]
  refine passes_place fun place' => passes_peekLexeme ?_
  exact (hcond hroom hmore place').last fun s hs => passes_noSemicolon hmore hs

theorem reads_whileLoop {place : Coordinate} {test : Expr} {body : List Stmt}
    (hs : (Stmt.whileLoop place test body).Sound around) (hbody : ∀ s ∈ body, ReadsStatement limit ⟨true, true⟩ s) :
    ReadsStatement limit around (.whileLoop place test body) := by
  refine ⟨fun room hroom => ⟨begins_of_sound hs, fun {more} hmore => ?_⟩, nofun⟩
  simp only [Stmt.lexemes, List.length_cons, List.length_append] at hroom
  rw [statement]
  refine passes_place fun place => passes_peekLexeme (passes_advance ?_)
  refine (passes_expression hs.1 (by omega) (stops_leftBrace _)).andThen fun test' htest => ?_
  refine (@passes_block _ _ _ ⟨around.inBlock, true⟩ _ hbody (by omega)).last fun body' hbody' => ?_
  refine passes_noSemicolon hmore ?_
  rw [Stmt.bare, Stmt.bare, htest, hbody']

theorem reads_forEach {place : Coordinate} {name : String} {iterable : Expr} {body : List Stmt}
    (hs : (Stmt.forEach place name iterable body).Sound around)
    (hbody : ∀ s ∈ body, ReadsStatement limit ⟨true, true⟩ s) :
    ReadsStatement limit around (.forEach place name iterable body) := by
  refine ⟨fun room hroom => ⟨begins_of_sound hs, fun {more} hmore => ?_⟩, nofun⟩
  simp only [Stmt.lexemes, List.length_cons, List.length_append] at hroom
  rw [statement]
  refine passes_place fun place => passes_peekLexeme (passes_advance (passes_expectName.first ?_))
  rintro name rfl
  refine passes_expect.first fun _ _ => ?_
  refine (passes_expression hs.2.1 (by omega) (stops_leftBrace _)).andThen fun iterable' hiterable => ?_
  refine (@passes_block _ _ _ ⟨around.inBlock, true⟩ _ hbody (by omega)).last fun body' hbody' => ?_
  refine passes_noSemicolon hmore ?_
  rw [Stmt.bare, Stmt.bare, hiterable, hbody']

theorem reads_block {place : Coordinate} {body : List Stmt} (hs : (Stmt.block place body).Sound around)
    (hbody : ∀ s ∈ body, ReadsStatement limit ⟨true, around.inLoop⟩ s) :
    ReadsStatement limit around (.block place body) := by
  refine ⟨fun room hroom => ⟨begins_of_sound hs, fun {more} hmore => ?_⟩, nofun⟩
  rw [statement]
  refine passes_place fun place' => passes_peekLexeme ?_
  have hblock : Passes .aligned (Stmt.block place' <$> block limit around room) (Stmt.block place body).lexemes more
      (Gives fun s => s.bare = (Stmt.block place body).bare) := by
    refine (passes_block hbody hroom).map fun body' hbody' => ?_
    rw [Stmt.bare, Stmt.bare, hbody']
  exact hblock.last fun s hs => passes_noSemicolon hmore hs

theorem reads_personality {place : Coordinate} {entries : List TraitEntry}
    (hs : (Stmt.personality place entries).Sound around) : ReadsStatement limit around (.personality place entries) := by
  refine ⟨fun room hroom => ⟨begins_of_sound hs, fun {more} hmore => ?_⟩, nofun⟩
  have hpersonality : ∀ place', Passes .aligned (Stmt.personality place' <$> personality around)
      (Stmt.personality place entries).lexemes more (Gives fun s => s.bare = (Stmt.personality place entries).bare) := by
    intro place'
    unfold personality
    rw [hs.1]
    refine Passes.map (Q := List.Forall₂ (fun e a => a.bare = e.bare) entries) ?_ fun entries' hentries => ?_
    · refine passes_advance (passes_expect.first fun _ _ => ?_)
      exact passes_body (by decide) _ fun e he => isItem_traitEntry (hs.2 e he)
    · rw [Stmt.bare, Stmt.bare, map_bare_eq hentries]
  rw [statement]
  refine passes_place fun place' => passes_peekLexeme ?_
  exact (hpersonality place').last fun s hs => passes_noSemicolon hmore hs

theorem reads_leave {place : Coordinate} (hs : (Stmt.leave place).Sound around) :
    ReadsStatement limit around (.leave place) := by
  refine ⟨fun room hroom => ⟨begins_of_sound hs, fun {more} hmore => ?_⟩, nofun⟩
  rw [statement]
  refine passes_place fun place => passes_peekLexeme ?_
  have hloop : around.inLoop = true := hs
  simp only [hloop]
  exact passes_advance (passes_semicolon rfl)

theorem reads_again {place : Coordinate} (hs : (Stmt.again place).Sound around) :
    ReadsStatement limit around (.again place) := by
  refine ⟨fun room hroom => ⟨begins_of_sound hs, fun {more} hmore => ?_⟩, nofun⟩
  rw [statement]
  refine passes_place fun place => passes_peekLexeme ?_
  have hloop : around.inLoop = true := hs
  simp only [hloop]
  exact passes_advance (passes_semicolon rfl)

/-- What begins an expression begins an expression statement, but for the brace of a map. -/
theorem passes_exprStatement (hstart : ∃ l rest, ls = l :: rest ∧ l.startsExpression = true)
    (hbrace : ls.head? ≠ some (.mark .leftBrace)) {Q : Expr → Prop}
    (hexpr : Passes L (expression limit room 0) ls (.mark .semicolon :: more) (Gives Q)) :
    Passes L (statement limit around room) (ls ++ [.mark .semicolon]) more
      (Gives fun s => ∃ place e, s = .expr place e ∧ Q e) := by
  obtain ⟨l, rest, rfl, hstart⟩ := hstart
  have hstatement : ∀ place, Passes L (Stmt.expr place <$> expression limit room 0) (l :: rest)
      (.mark .semicolon :: more) (Gives fun s => ∃ place e, s = .expr place e ∧ Q e) := fun place =>
    hexpr.map fun e he => ⟨place, e, rfl, he⟩
  rw [statement]
  refine passes_place fun place => passes_peekLexeme ?_
  rw [List.cons_append, List.cons_append, List.head?_cons]
  split
  · next h => cases h
  all_goals
    next h =>
      obtain rfl := Option.some.inj h
      first
      | exact absurd rfl hbrace
      | cases hstart
      | exact (hstatement place).andThen fun s hs => passes_semicolon hs

theorem reads_expr {place : Coordinate} {e : Expr} (hs : (Stmt.expr place e).Sound around) :
    ReadsStatement limit around (.expr place e) := by
  refine ⟨fun room hroom => ⟨begins_of_sound hs, fun {more} hmore => ?_⟩, nofun⟩
  simp only [Stmt.lexemes, List.length_append, List.length_cons, List.length_nil] at hroom
  refine (passes_exprStatement (starts_of_sound hs.2) (head_lexemes e hs.1)
    (passes_expression hs.2 (Nat.lt_of_succ_le hroom) (stops_semicolon more))).imp ?_
  rintro _ ⟨_, ⟨place', e', rfl, he'⟩, rfl⟩
  exact ⟨.expr place' e', congrArg (Stmt.expr .start) he', rfl⟩

/-- Nothing is given back where no expression begins. -/
theorem returned_none {expr : Parser Expr} {t : Token} (ht : t.lexeme.startsExpression = false) (line : Nat)
    (ts : List Token) : returned expr line (t :: ts) = .ok (none, t :: ts) := by
  show (if t.lexeme.startsExpression && t.start.line = line then some <$> expr else return none) (t :: ts) = _
  rw [ht]
  rfl

/-- What begins on the line of the `return` is given back. -/
theorem returned_some {expr : Parser Expr} {t : Token} {line : Nat} (ht : t.lexeme.startsExpression = true)
    (hline : t.start.line = line) (ts : List Token) : returned expr line (t :: ts) = (some <$> expr) (t :: ts) := by
  show (if t.lexeme.startsExpression && t.start.line = line then some <$> expr else return none) (t :: ts) = _
  rw [ht, hline, Bool.true_and, if_pos (decide_eq_true rfl)]

theorem reads_giveBack {place : Coordinate} {e : Option Expr} (hs : (Stmt.giveBack place e).Sound around) :
    ReadsStatement limit around (.giveBack place e) := by
  refine ⟨fun room hroom => ⟨begins_of_sound hs, fun {more} hmore => ?_⟩, nofun⟩
  rw [statement]
  cases e with
  | none =>
    refine passes_place fun place' => passes_peekLexeme (passes_advance ?_)
    refine .of_eq fun ts _ hts => ⟨do discard (accept (.mark .semicolon)); return .giveBack place' none, ?_, ?_⟩
    · exact passes_semicolon rfl
    · cases ts with
      | nil => cases hts
      | cons t ts =>
        have ht : t.lexeme = .mark .semicolon := (List.cons.inj hts).1
        have hreturned := @returned_none (expression limit room 0) t (by rw [ht]; rfl) place'.line ts
        show (returned (expression limit room 0) place'.line (t :: ts) >>= _) = _
        rw [hreturned]
        rfl
  | some e =>
    simp only [Stmt.lexemes, List.length_cons, List.length_append, List.length_nil] at hroom
    refine .of_eq fun ts haligned hts => ⟨do
      let place' ← here
      advance
      let e ← some <$> expression limit room 0
      discard (accept (.mark .semicolon))
      return .giveBack place' e, ?_, ?_⟩
    · refine passes_place fun place' => passes_advance ?_
      refine ((passes_expression hs (by omega) (stops_semicolon _)).map (R := fun e' => ∃ e'', e' = some e'' ∧ e''.bare = e.bare)
        fun e' he' => ⟨e', rfl, he'⟩).andThen ?_
      rintro _ ⟨e', rfl, he'⟩
      refine passes_semicolon ?_
      rw [Stmt.bare, Stmt.bare, he']
    · obtain ⟨l, rest, hl, hstart⟩ := starts_of_sound hs
      rw [Stmt.lexemes, hl] at hts
      cases ts with
      | nil => cases hts
      | cons t ts =>
        obtain ⟨ht, hrest⟩ := List.cons.inj hts
        obtain ⟨_, start, stop⟩ := t
        obtain rfl : _ = Lexeme.keyword .returnKey := ht
        cases ts with
        | nil => cases hrest
        | cons u ts =>
          have hu : u.lexeme = l := (List.cons.inj hrest).1
          have hline : u.start.line = start.line := haligned.1 rfl u rfl
          have hreturned := @returned_some (expression limit room 0) u _ (by rw [hu]; exact hstart) hline ts
          show (returned (expression limit room 0) start.line (u :: ts) >>= _) =
            ((some <$> expression limit room 0) (u :: ts) >>= _)
          rw [hreturned]
          rfl

mutual

/-- Every sound statement is read back. -/
theorem reads_statement : ∀ (s : Stmt) {around : Surroundings}, s.Sound around → ReadsStatement limit around s
  | .expr _ _, _, h => reads_expr h
  | .bind _ _ _, _, h => reads_bind h
  | .function ⟨_, _, _, _, body⟩, _, h => reads_function h (reads_all body h.2.2.2)
  | .cond _ _ yes no, _, h => reads_cond h (reads_all yes h.2.1) (reads_else no h.2.2)
  | .whileLoop _ _ body, _, h => reads_whileLoop h (reads_all body h.2)
  | .forEach _ _ _ body, _, h => reads_forEach h (reads_all body h.2.2)
  | .block _ body, _, h => reads_block h (reads_all body h)
  | .personality _ _, _, h => reads_personality h
  | .giveBack _ _, _, h => reads_giveBack h
  | .leave _, _, h => reads_leave h
  | .again _, _, h => reads_again h
termination_by structural s => s

theorem reads_all : ∀ (ss : List Stmt) {around : Surroundings}, Stmt.ListSound around ss →
    ∀ s ∈ ss, ReadsStatement limit around s
  | [], _, _ => fun _ hs => absurd hs List.not_mem_nil
  | s :: ss, _, ⟨hs, hss⟩ => List.forall_mem_cons.2 ⟨reads_statement s hs, reads_all ss hss⟩
termination_by structural ss => ss

theorem reads_else : ∀ (no : Option Stmt) {around : Surroundings}, Stmt.ElseSound around no → ReadsElse limit around no
  | none, _, _ => readsElse_none
  | some (.cond place test yes no), _, h => readsElse_cond (reads_statement (.cond place test yes no) h)
  | some (.block _ body), _, h => readsElse_block (reads_all body h)
termination_by structural no => no

end

theorem passes_program {p : Program} (hp : Stmt.ListSound ⟨false, false⟩ p.statements)
    (hlimit : (Stmt.listLexemes p.statements).length ≤ limit) :
    Passes .aligned (program limit) (Stmt.listLexemes p.statements) [] (Gives fun p' => p'.bare = p.bare) := by
  have hitems : ∀ s ∈ p.statements, IsStatement .aligned (statement limit ⟨false, false⟩ limit) s.lexemes
      fun s' => s'.bare = s.bare := fun s hs =>
    (reads_all p.statements hp s hs).isStatement (Nat.le_trans (length_le_listLexemes hs) hlimit)
  have hcount := length_le_flatMap fun s hs => (hitems s hs).begins
  refine passes_get fun bound hbound => ?_
  rw [List.append_nil] at hbound
  rw [Stmt.listLexemes_eq] at hbound ⊢
  refine (passes_statements hitems (.inl rfl) (by omega)).last ?_
  rintro _ ⟨new, rfl, hnew⟩
  exact .done (congrArg Program.mk (Stmt.listBare_eq hnew))

end Parser

/-- A sound program is parsed from its lexemes if there is as much room as there are tokens. -/
theorem parse_of_lexemes {p : Program} (hp : Stmt.ListSound ⟨false, false⟩ p.statements) {ts : List Token}
    (haligned : Aligned ts) (hts : ts.map (·.lexeme) = Stmt.listLexemes p.statements) {limit : Nat}
    (hlimit : ts.length ≤ limit) : ∃ p', parse limit ts = .ok p' ∧ p'.bare = p.bare := by
  have hlength : (Stmt.listLexemes p.statements).length ≤ limit := by
    rwa [← hts, List.length_map]
  obtain ⟨_, ts', ⟨p', hp', rfl⟩, hrun, -⟩ :=
    Parser.passes_program hp hlength ts haligned (by rw [hts, List.append_nil])
  refine ⟨p', ?_, hp'⟩
  show (·.1) <$> Parser.program limit ts = _
  rw [hrun]
  rfl

/-- An expression is parsed from any lexemes that it is read from. -/
theorem parse_of_reads {limit : Nat} {ls : List Lexeme} {e : Expr} {strength : Nat}
    (h : Parser.Reads limit ls e strength) (hpos : 0 < strength) (hbrace : ls.head? ≠ some (.mark .leftBrace))
    {ts : List Token} (hts : ts.map (·.lexeme) = ls ++ [.mark .semicolon]) (hlimit : ts.length ≤ limit) :
    ∃ place e', parse limit ts = .ok ⟨[.expr place e']⟩ ∧ e'.bare = e.bare := by
  have hroom : ls.length < limit := by
    have hlength := congrArg List.length hts
    rw [List.length_map, List.length_append, List.length_singleton] at hlength
    omega
  have hitem : Parser.IsStatement .any (Parser.statement limit ⟨false, false⟩ limit) (ls ++ [.mark .semicolon])
      fun s => ∃ place e', s = .expr place e' ∧ e'.bare = e.bare := by
    refine ⟨?_, fun {more} _ => ?_⟩
    · obtain ⟨l, rest, rfl, hstart⟩ := h.starts
      refine ⟨l, _, rfl, ?_, ?_, ?_⟩ <;> rintro rfl <;> cases hstart
    · exact Parser.passes_exprStatement h.starts hbrace (h.expression hpos hroom (Parser.stops_semicolon more))
  have hprogram : Parser.Passes .any (Parser.program limit) (ls ++ [.mark .semicolon]) []
      (Parser.Gives fun p => ∃ place e', p = ⟨[.expr place e']⟩ ∧ e'.bare = e.bare) := by
    refine Parser.passes_get fun bound hbound => ?_
    rw [List.append_nil] at hbound
    have hrow := @Parser.passes_statements .any (Parser.statement limit ⟨false, false⟩ limit) false [] bound [] Unit
      (fun _ => ls ++ [.mark .semicolon]) _ [()] (fun _ _ => hitem) (.inl rfl)
      (by rw [hbound, List.length_append]; exact Nat.le_add_left 1 _)
    rw [List.flatMap_singleton] at hrow
    refine hrow.last ?_
    rintro _ ⟨_, rfl, hnew⟩
    cases hnew with
    | cons hs hnil =>
      cases hnil
      obtain ⟨place, e', rfl, he'⟩ := hs
      exact .done ⟨place, e', rfl, he'⟩
  obtain ⟨_, ts', ⟨_, ⟨place, e', rfl, he'⟩, rfl⟩, hrun, -⟩ :=
    hprogram ts trivial (by rw [hts, List.append_nil])
  refine ⟨place, e', ?_, he'⟩
  show (·.1) <$> Parser.program limit ts = _
  rw [hrun]
  rfl

end Persona
