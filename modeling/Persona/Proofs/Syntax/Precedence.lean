import Persona.Proofs.Syntax.Expression

/-! Precedence.

Operators are ranked by a table: calls and indexings before signs, then powers, products, sums,
comparisons, `&&`, `||` and assignments. Powers and assignments group to the right, all other
operators to the left. A spelling that puts parentheses only where this table asks for them is
read as the expression, whatever the strengths and minimums are that the parser reckons with. -/
namespace Persona

/-! ### The table -/

/-- The row of an operator in the table, from the loosest on. -/
def Connective.rank : Connective → Nat
  | assign => 1
  | binary .or => 2
  | binary .and => 3
  | binary .equal | binary .notEqual | binary .less | binary .lessEqual | binary .greater
  | binary .greaterEqual => 4
  | binary .add | binary .sub => 5
  | binary .mul | binary .div | binary .mod => 6
  | binary .pow => 7

/-- Whether of two in a row the second one is done first. -/
def Connective.groupsRight : Connective → Bool
  | assign | binary .pow => true
  | _ => false

/-- The row of what an expression is made with. -/
def Expr.rank : Expr → Nat
  | .binary op _ _ => (Connective.binary op).rank
  | .assign _ _ => Connective.assign.rank
  | .unary _ _ => 8
  | _ => 9

/-- Whether an expression needs parentheses where it stands. -/
def Place.asks : Place → Expr → Bool
  | left c, e => e.rank < c.rank || e.rank == c.rank && c.groupsRight
  | right c, e => e.rank < c.rank || e.rank == c.rank && !c.groupsRight
  | operand, e => e.rank < 8
  | base, e => e.rank < 9
  | enclosed, _ => false

/-! ### The parser's numbers -/

/-- The strength that the parser has for a row of the table. -/
def strengthAt : (rank : Nat) → Nat
  | 0 => 0
  | 1 => 50
  | 2 => 60
  | 3 => 80
  | 4 => 100
  | 5 => 200
  | 6 => 300
  | 7 => 400
  | 8 => 500
  | _ => 600

theorem strengthAt_lt {i j : Nat} (hlt : i < j) (hj : j ≤ 9) : strengthAt i < strengthAt j := by
  have hall : ∀ j ≤ 9, ∀ i < j, strengthAt i < strengthAt j := by decide
  exact hall j hj i hlt

theorem strengthAt_le {i j : Nat} (hle : i ≤ j) (hj : j ≤ 9) : strengthAt i ≤ strengthAt j := by
  rcases Nat.eq_or_lt_of_le hle with rfl | hlt
  · exact Nat.le_refl _
  · exact Nat.le_of_lt (strengthAt_lt hlt hj)

theorem Connective.strength_eq (c : Connective) : c.strength = strengthAt c.rank := by
  cases c with
  | binary op => cases op <;> rfl
  | assign => rfl

theorem Connective.rank_le (c : Connective) : c.rank ≤ 7 := by
  cases c with
  | binary op => cases op <;> decide
  | assign => decide

theorem Connective.leftMinimum_eq (c : Connective) :
    c.leftMinimum = if c.groupsRight then strengthAt c.rank else strengthAt c.rank - 1 := by
  cases c with
  | binary op => cases op <;> rfl
  | assign => rfl

theorem Connective.rightMinimum_eq (c : Connective) :
    c.rightMinimum = if !c.groupsRight then strengthAt c.rank else strengthAt c.rank - 1 := by
  cases c with
  | binary op => cases op <;> rfl
  | assign => rfl

theorem Expr.strength_eq (e : Expr) : e.strength = strengthAt e.rank := by
  cases e with
  | binary op _ _ => exact (Connective.binary op).strength_eq
  | _ => rfl

theorem Expr.rank_bounds (e : Expr) : 0 < e.rank ∧ e.rank ≤ 9 := by
  have hop : ∀ op, 0 < (Connective.binary op).rank := fun op => by cases op <;> decide
  cases e with
  | binary op _ _ => exact ⟨hop op, Nat.le_trans (Connective.rank_le _) (by decide)⟩
  | _ => exact ⟨Nat.le_of_ble_eq_true rfl, Nat.le_of_ble_eq_true rfl⟩

/-- What the table does not ask to put in parentheses is strong enough for the parser. -/
theorem Place.lt_strength {place : Place} {e : Expr} (h : place.asks e = false) :
    place.minimum < e.strength := by
  obtain ⟨hpos, hle⟩ := e.rank_bounds
  have hzero : 0 < strengthAt e.rank := strengthAt_lt hpos hle
  have hsides : ∀ {c : Connective} {grouped : Bool},
      (e.rank < c.rank || e.rank == c.rank && grouped) = false →
        (if grouped then strengthAt c.rank else strengthAt c.rank - 1) < strengthAt e.rank := by
    intro c grouped h
    obtain ⟨hnot, heq⟩ := Bool.or_eq_false_iff.1 h
    have hrank : c.rank ≤ e.rank := Nat.le_of_not_lt (of_decide_eq_false hnot)
    cases grouped with
    | true =>
      rw [Bool.and_true] at heq
      exact strengthAt_lt (Nat.lt_of_le_of_ne hrank (Ne.symm (ne_of_beq_false heq))) hle
    | false =>
      have hstrength := strengthAt_le hrank hle
      show strengthAt c.rank - 1 < _
      omega
  rw [e.strength_eq]
  cases place with
  | left c =>
    have hleft := hsides h
    rwa [← c.leftMinimum_eq] at hleft
  | right c =>
    have hright := hsides h
    rwa [← c.rightMinimum_eq] at hright
  | operand => exact strengthAt_le (i := 8) (Nat.le_of_not_lt (of_decide_eq_false h)) hle
  | base => exact strengthAt_le (i := 9) (Nat.le_of_not_lt (of_decide_eq_false h)) hle
  | enclosed => exact hzero

namespace Spelling

/-- Parentheses stand only where the table asks for them. -/
def sparse (number : Float → String) (key : String → Lexeme)
    (hkey : ∀ s, key s = .name s ∨ key s = .string s) : Spelling where
  number := number
  key := key
  key_eq := hkey
  parens := Place.asks

variable {number : Float → String} {key : String → Lexeme} {hkey : ∀ s, key s = .name s ∨ key s = .string s}

theorem holds_sparse (place : Place) (e : Expr) : (sparse number key hkey).Holds place e := by
  cases h : place.asks e with
  | true => exact .inl h
  | false => exact .inr (Place.lt_strength h)

mutual

/-- What a sparse spelling needs is that numbers have texts. -/
theorem suits_sparse : ∀ (e : Expr), (∀ x ∈ e.numbers, Decimal.parse? (number x) = some x) →
    (sparse number key hkey).Suits e
  | .literal (.number x), h => h x (List.mem_singleton_self x)
  | .literal (.string _), _ | .literal (.bool _), _ | .literal .null, _ | .identifier _, _ => trivial
  | .binary _ l r, h => by
    obtain ⟨hl, hr⟩ := List.forall_mem_append.1 h
    exact ⟨⟨holds_sparse _ l, suits_sparse l hl⟩, holds_sparse _ r, suits_sparse r hr⟩
  | .unary _ e, h => ⟨holds_sparse _ e, suits_sparse e h⟩
  | .assign _ value, h => ⟨holds_sparse _ value, suits_sparse value h⟩
  | .call _ callee arguments, h => by
    obtain ⟨hcallee, harguments⟩ := List.forall_mem_append.1 h
    exact ⟨⟨holds_sparse _ callee, suits_sparse callee hcallee⟩, suitsAll_sparse arguments harguments⟩
  | .array elements, h => suitsAll_sparse elements h
  | .map entries, h => suitsEntries_sparse entries h
  | .index object key, h => by
    obtain ⟨hobject, hkey⟩ := List.forall_mem_append.1 h
    exact ⟨⟨holds_sparse _ object, suits_sparse object hobject⟩, suits_sparse key hkey⟩
termination_by structural e => e

theorem suitsAll_sparse : ∀ (es : List Expr),
    (∀ x ∈ Expr.listNumbers es, Decimal.parse? (number x) = some x) → (sparse number key hkey).SuitsAll es
  | [], _ => trivial
  | e :: es, h => by
    obtain ⟨he, hes⟩ := List.forall_mem_append.1 h
    exact ⟨suits_sparse e he, suitsAll_sparse es hes⟩
termination_by structural es => es

theorem suitsEntries_sparse : ∀ (es : List (String × Expr)),
    (∀ x ∈ Expr.entriesNumbers es, Decimal.parse? (number x) = some x) →
      (sparse number key hkey).SuitsEntries es
  | [], _ => trivial
  | (_, e) :: es, h => by
    obtain ⟨he, hes⟩ := List.forall_mem_append.1 h
    exact ⟨suits_sparse e he, suitsEntries_sparse es hes⟩
termination_by structural es => es

end

end Spelling

/-- A token that no expression goes on with: no operator, no call and no indexing. -/
def Token.EndsExpression (t : Token) : Prop :=
  Connective.ofLexeme? t.lexeme = none ∧ t.lexeme ≠ .mark .leftParen ∧ t.lexeme ≠ .mark .leftBracket

theorem Parser.Stops.ofRest {rest : List Token} (hrest : ∀ t ∈ rest.head?, t.EndsExpression) (minimum : Nat) :
    Stops minimum (rest.map (·.lexeme)) := by
  cases rest with
  | nil =>
    have hmore : NoPostfix [] := ⟨nofun, nofun⟩
    exact .of_none hmore rfl minimum
  | cons t rest =>
    obtain ⟨hnone, hparen, hbracket⟩ := hrest t rfl
    have hmore : NoPostfix (t.lexeme :: rest.map (·.lexeme)) :=
      ⟨fun h => hparen (Option.some.inj h), fun h => hbracket (Option.some.inj h)⟩
    exact .of_none hmore hnone minimum

/-- Every expression is read from its sparse spelling and from no token more, if there is room
enough and what follows does not go on with it. -/
theorem expression_sparse {number : Float → String} {key : String → Lexeme}
    (hkey : ∀ s, key s = .name s ∨ key s = .string s) {e : Expr}
    (hnumbers : ∀ x ∈ e.numbers, Decimal.parse? (number x) = some x) {ts rest : List Token}
    (hts : ts.map (·.lexeme) = (Spelling.sparse number key hkey).plain e)
    (hrest : ∀ t ∈ rest.head?, t.EndsExpression) {limit room : Nat} (hroom : ts.length < room) :
    ∃ e', (Parser.expression limit room 0).run (ts ++ rest) = .ok (e', rest) ∧ e'.bare = e.bare := by
  have hreads : Parser.Reads limit ((Spelling.sparse number key hkey).plain e) e e.strength :=
    Parser.reads_plain e (Spelling.suits_sparse e hnumbers)
  have hlength : ((Spelling.sparse number key hkey).plain e).length < room := by
    rw [← hts, List.length_map]
    exact hroom
  have hpasses := hreads.expression e.strength_pos hlength (.ofRest hrest 0)
  have hall : (ts ++ rest).map (·.lexeme) = (Spelling.sparse number key hkey).plain e ++ rest.map (·.lexeme) := by
    rw [List.map_append, hts]
  obtain ⟨_, ts', ⟨e', he', rfl⟩, hrun, hsuffix, hts'⟩ := hpasses (ts ++ rest) trivial hall
  have hlength : ts'.length = rest.length := by
    rw [← List.length_map (f := (·.lexeme)), hts', List.length_map]
  obtain rfl : ts' = rest :=
    (List.suffix_of_suffix_length_le hsuffix (List.suffix_append ts rest) (Nat.le_of_eq hlength)).eq_of_length
      hlength
  exact ⟨e', hrun, he'⟩

/-- `(a - 1) * -f(b) ** a`, where only the difference needs parentheses. -/
def product : Expr :=
  .binary .mul (.binary .sub (.identifier ⟨"a", .start⟩) (.literal (.number 1.0)))
    (.binary .pow (.unary .negate (.call .start (.identifier ⟨"f", .start⟩) [.identifier ⟨"b", .start⟩]))
      (.identifier ⟨"a", .start⟩))

def productTokens : List Token :=
  [.mark .leftParen, .name "a", .mark .minus, .number "1", .mark .rightParen, .mark .star, .mark .minus,
    .name "f", .mark .leftParen, .name "b", .mark .rightParen, .mark .starStar, .name "a"].map (⟨·, .start, .start⟩)

theorem expression_sparse_product :
    ∃ e', (Parser.expression 14 14 0).run (productTokens ++ [⟨.mark .semicolon, .start, .start⟩]) =
        .ok (e', [⟨.mark .semicolon, .start, .start⟩]) ∧ e'.bare = product.bare := by
  have hkey : ∀ s, Lexeme.name s = .name s ∨ Lexeme.name s = .string s := fun _ => .inl rfl
  have hnumbers : ∀ x ∈ product.numbers, Decimal.parse? "1" = some x := by
    intro x hx
    obtain rfl : x = 1.0 := List.mem_singleton.1 hx
    decide +kernel
  have hrest : ∀ t ∈ [Token.mk (.mark .semicolon) .start .start].head?, t.EndsExpression := by
    rintro t ⟨⟩
    exact ⟨rfl, nofun, nofun⟩
  exact expression_sparse hkey hnumbers rfl hrest (by decide)

end Persona
