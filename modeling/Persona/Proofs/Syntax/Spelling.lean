import Persona.Proofs.Syntax.Reading

/-! Spellings of expressions.

An expression is spelled with lexemes, and with parentheses around parts of it. Where a part
stands, something has to hold it together: the operators around it leave alone what is
stronger than a minimum, and all other parts need parentheses. -/
namespace Persona

/-! ### Strengths -/

namespace Connective

/-- The minimum for the left operand: where operators group to the right, it is stronger than
they are. -/
def leftMinimum : Connective → Nat
  | binary .pow => BinaryOp.pow.strength
  | binary op => op.strength - 1
  | assign => assign.strength

theorem strength_pos (c : Connective) : 0 < c.strength := by
  cases c with
  | binary op => cases op <;> decide
  | assign => decide

theorem leftMinimum_le_strength (c : Connective) : c.leftMinimum ≤ c.strength := by
  cases c with
  | binary op => cases op <;> decide
  | assign => decide

theorem le_leftMinimum {c : Connective} {minimum : Nat} (h : minimum < c.strength) :
    minimum ≤ c.leftMinimum := by
  cases c with
  | binary op =>
    cases op with
    | pow => exact Nat.le_of_lt h
    | _ => exact Nat.le_sub_one_of_lt h
  | assign => exact Nat.le_of_lt h

/-- Of two operators beside an operand, exactly one takes it. -/
theorem strength_le_rightMinimum {c d : Connective} (h : c.leftMinimum < d.strength) :
    c.strength ≤ d.rightMinimum := by
  cases c with
  | binary op =>
    cases d with
    | binary op' => cases op <;> cases op' <;> revert h <;> decide
    | assign => cases op <;> revert h <;> decide
  | assign =>
    cases d with
    | binary op' => cases op' <;> revert h <;> decide
    | assign => revert h; decide

end Connective

def UnaryOp.mark : UnaryOp → Mark
  | negate => .minus
  | not => .bang

namespace Expr

/-- The strength of the operator that an expression is made with; calls, indexings and bases
are the strongest, then come operands of a sign. -/
def strength : Expr → Nat
  | binary op _ _ => (Connective.binary op).strength
  | assign _ _ => Connective.assign.strength
  | unary _ _ => 500
  | _ => 600

theorem strength_pos (e : Expr) : 0 < e.strength := by
  cases e with
  | binary op _ _ => exact (Connective.binary op).strength_pos
  | _ => exact Nat.zero_lt_succ _

theorem strength_le (e : Expr) : e.strength ≤ 600 := by
  cases e with
  | binary op _ _ => cases op <;> exact Nat.le_of_ble_eq_true rfl
  | _ => exact Nat.le_of_ble_eq_true rfl

mutual

/-- The expression without its coordinates. -/
def bare : Expr → Expr
  | literal l => literal l
  | identifier i => identifier ⟨i.name, .start⟩
  | binary op l r => binary op l.bare r.bare
  | unary op e => unary op e.bare
  | assign target value => assign ⟨target.name, .start⟩ value.bare
  | call _ callee arguments => call .start callee.bare (listBare arguments)
  | array elements => array (listBare elements)
  | map entries => map (entriesBare entries)
  | index object key => index object.bare key.bare
termination_by structural e => e

def listBare : List Expr → List Expr
  | [] => []
  | e :: es => e.bare :: listBare es
termination_by structural es => es

def entriesBare : List (String × Expr) → List (String × Expr)
  | [] => []
  | (key, e) :: es => (key, e.bare) :: entriesBare es
termination_by structural es => es

end

mutual

/-- The numbers that an expression is written with. -/
def numbers : Expr → List Float
  | literal (.number x) => [x]
  | literal _ | identifier _ => []
  | binary _ l r => l.numbers ++ r.numbers
  | unary _ e | assign _ e => e.numbers
  | call _ callee arguments => callee.numbers ++ listNumbers arguments
  | array elements => listNumbers elements
  | map entries => entriesNumbers entries
  | index object key => object.numbers ++ key.numbers
termination_by structural e => e

def listNumbers : List Expr → List Float
  | [] => []
  | e :: es => e.numbers ++ listNumbers es
termination_by structural es => es

def entriesNumbers : List (String × Expr) → List Float
  | [] => []
  | (_, e) :: es => e.numbers ++ entriesNumbers es
termination_by structural es => es

end

theorem listBare_eq {es as : List Expr} (h : List.Forall₂ (fun e a => a.bare = e.bare) es as) :
    listBare as = listBare es := by
  induction h with
  | nil => rfl
  | cons h _ ih => rw [listBare, listBare, h, ih]

theorem entriesBare_eq {es as : List (String × Expr)}
    (h : List.Forall₂ (fun e a => a.1 = e.1 ∧ a.2.bare = e.2.bare) es as) :
    entriesBare as = entriesBare es := by
  induction h with
  | nil => rfl
  | cons h _ ih => rw [entriesBare, entriesBare, h.1, h.2, ih]

end Expr

/-! ### Spellings -/

/-- Where a part of an expression stands: beside an operator, behind a sign, before a call or an
indexing, or where marks enclose it. -/
inductive Place where
  | left (c : Connective)
  | right (c : Connective)
  | operand
  | base
  | enclosed

/-- What stands here has to be stronger. -/
def Place.minimum : Place → Nat
  | left c => c.leftMinimum
  | right c => c.rightMinimum
  | operand => 499
  | base => 599
  | enclosed => 0

theorem Place.minimum_lt (place : Place) : place.minimum < 600 := by
  cases place with
  | left c | right c =>
    cases c with
    | binary op => cases op <;> decide
    | assign => decide
  | _ => decide

/-- A way to spell expressions: how numbers and keys are written, and which parts stand in
parentheses. -/
structure Spelling where
  number : Float → String
  key : String → Lexeme
  key_eq : ∀ s, key s = .name s ∨ key s = .string s
  parens : Place → Expr → Bool

namespace Spelling

variable (σ : Spelling)

def literal : Literal → Lexeme
  | .number x => .number (σ.number x)
  | .string s => .string s
  | .bool true => .keyword .trueKey
  | .bool false => .keyword .falseKey
  | .null => .keyword .nullKey

def inParens (ls : List Lexeme) : List Lexeme := .mark .leftParen :: (ls ++ [.mark .rightParen])

/-- A part that is spelled so, where it stands. -/
def part (place : Place) (e : Expr) (ls : List Lexeme) : List Lexeme :=
  if σ.parens place e then inParens ls else ls

mutual

/-- The lexemes of an expression, without parentheses around the whole. -/
def plain : Expr → List Lexeme
  | .literal l => [σ.literal l]
  | .identifier i => [.name i.name]
  | .binary op l r =>
    σ.part (.left (.binary op)) l (plain l) ++
      .mark op.mark :: σ.part (.right (.binary op)) r (plain r)
  | .unary op e => .mark op.mark :: σ.part .operand e (plain e)
  | .assign target value =>
    .name target.name :: .mark .equal :: σ.part (.right .assign) value (plain value)
  | .call _ callee arguments =>
    σ.part .base callee (plain callee) ++
      .mark .leftParen :: (Parser.joined (rows arguments) ++ [.mark .rightParen])
  | .array elements => .mark .leftBracket :: (Parser.joined (rows elements) ++ [.mark .rightBracket])
  | .map entries => .mark .leftBrace :: (Parser.joined (entryRows entries) ++ [.mark .rightBrace])
  | .index object key =>
    σ.part .base object (plain object) ++
      .mark .leftBracket :: (σ.part .enclosed key (plain key) ++ [.mark .rightBracket])
termination_by structural e => e

def rows : List Expr → List (List Lexeme)
  | [] => []
  | e :: es => σ.part .enclosed e (plain e) :: rows es
termination_by structural es => es

def entryRows : List (String × Expr) → List (List Lexeme)
  | [] => []
  | (key, e) :: es => (σ.key key :: .mark .colon :: σ.part .enclosed e (plain e)) :: entryRows es
termination_by structural es => es

end

/-- The lexemes of an expression where it stands. -/
def spell (place : Place) (e : Expr) : List Lexeme := σ.part place e (σ.plain e)

def spellEntry (e : String × Expr) : List Lexeme := σ.key e.1 :: .mark .colon :: σ.spell .enclosed e.2

theorem rows_eq (es : List Expr) : σ.rows es = es.map (σ.spell .enclosed) := by
  induction es with
  | nil => rfl
  | cons e es ih => rw [rows, ih, List.map_cons, spell]

theorem entryRows_eq (es : List (String × Expr)) : σ.entryRows es = es.map σ.spellEntry := by
  induction es with
  | nil => rfl
  | cons e es ih => rw [entryRows, ih, List.map_cons, spellEntry, spell]

/-- The part is strong enough for where it stands, or in parentheses. -/
def Holds (place : Place) (e : Expr) : Prop := σ.parens place e = true ∨ place.minimum < e.strength

mutual

/-- All parts hold together, and all numbers are read as what they are. -/
def Suits : Expr → Prop
  | .literal (.number x) => Decimal.parse? (σ.number x) = some x
  | .literal _ | .identifier _ => True
  | .binary op l r =>
    (σ.Holds (.left (.binary op)) l ∧ Suits l) ∧
      σ.Holds (.right (.binary op)) r ∧ Suits r
  | .unary _ e => σ.Holds .operand e ∧ Suits e
  | .assign _ value => σ.Holds (.right .assign) value ∧ Suits value
  | .call _ callee arguments => (σ.Holds .base callee ∧ Suits callee) ∧ SuitsAll arguments
  | .array elements => SuitsAll elements
  | .map entries => SuitsEntries entries
  | .index object key => (σ.Holds .base object ∧ Suits object) ∧ Suits key
termination_by structural e => e

def SuitsAll : List Expr → Prop
  | [] => True
  | e :: es => Suits e ∧ SuitsAll es
termination_by structural es => es

def SuitsEntries : List (String × Expr) → Prop
  | [] => True
  | (_, e) :: es => Suits e ∧ SuitsEntries es
termination_by structural es => es

end

end Spelling

end Persona
