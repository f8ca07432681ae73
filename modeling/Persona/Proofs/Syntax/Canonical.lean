import Persona.Proofs.Decimal.Plain
import Persona.Proofs.Syntax.Expression
import Persona.Syntax.Printer

/-! The lexemes of canonical texts.

Operations stand in parentheses, keys are strings, and numbers have their shortest texts. What a
program must have so that it is read back from them is that it is *sound*: its names are names,
its numbers can be written, no assignment stands where an operator would take its target, and no
statement begins with the brace of a map. -/
namespace Persona

/-! ### Expressions -/

def Expr.isOperation : Expr → Bool
  | .binary .. | .unary .. => true
  | _ => false

/-- Operations in parentheses, keys as strings. -/
def Spelling.canonical : Spelling where
  number := Decimal.number
  key := .string
  key_eq _ := .inr rfl
  parens _ e := e.isOperation

namespace Expr

def lexemes (e : Expr) : List Lexeme := Spelling.canonical.spell .enclosed e

theorem lexemes_call (place : Coordinate) (callee : Expr) (arguments : List Expr) :
    (call place callee arguments).lexemes = callee.lexemes ++
      .mark .leftParen :: (Parser.joined (arguments.map lexemes) ++ [.mark .rightParen]) := by
  show Spelling.canonical.plain _ = _
  rw [Spelling.plain, Spelling.rows_eq]
  rfl

theorem lexemes_index (object key : Expr) : (index object key).lexemes =
    object.lexemes ++ .mark .leftBracket :: (key.lexemes ++ [.mark .rightBracket]) := rfl

theorem lexemes_array (elements : List Expr) : (array elements).lexemes =
    .mark .leftBracket :: (Parser.joined (elements.map lexemes) ++ [.mark .rightBracket]) := by
  show Spelling.canonical.plain _ = _
  rw [Spelling.plain, Spelling.rows_eq]
  rfl

/-- A key and its value. -/
def entryLexemes (e : String × Expr) : List Lexeme := .string e.1 :: .mark .colon :: e.2.lexemes

theorem lexemes_map (entries : List (String × Expr)) : (map entries).lexemes =
    .mark .leftBrace :: (Parser.joined (entries.map entryLexemes) ++ [.mark .rightBrace]) := by
  show Spelling.canonical.plain _ = _
  rw [Spelling.plain, Spelling.entryRows_eq]
  rfl

theorem lexemes_ne_nil (e : Expr) : e.lexemes ≠ [] := by
  cases e with
  | call place callee arguments =>
    rw [lexemes_call]
    exact List.append_ne_nil_of_right_ne_nil _ (List.cons_ne_nil _ _)
  | index object key =>
    rw [lexemes_index]
    exact List.append_ne_nil_of_right_ne_nil _ (List.cons_ne_nil _ _)
  | _ => exact List.cons_ne_nil _ _

def isAssign : Expr → Bool
  | assign _ _ => true
  | _ => false

/-- Whether the text begins with the brace of a map. -/
def opensBrace : Expr → Bool
  | map _ => true
  | call _ callee _ => callee.opensBrace
  | index object _ => object.opensBrace
  | _ => false

mutual

def Sound : Expr → Prop
  | literal (.number x) => Decimal.Plain x
  | literal _ => True
  | identifier i => Lexer.IsName i.name
  | binary _ l r => (l.isAssign = false ∧ l.Sound) ∧ r.isAssign = false ∧ r.Sound
  | unary _ e => e.isAssign = false ∧ e.Sound
  | assign target value => Lexer.IsName target.name ∧ value.Sound
  | call _ callee arguments => (callee.isAssign = false ∧ callee.Sound) ∧ ListSound arguments
  | array elements => ListSound elements
  | map entries => EntriesSound entries
  | index object key => (object.isAssign = false ∧ object.Sound) ∧ key.Sound
termination_by structural e => e

def ListSound : List Expr → Prop
  | [] => True
  | e :: es => e.Sound ∧ ListSound es
termination_by structural es => es

def EntriesSound : List (String × Expr) → Prop
  | [] => True
  | (_, e) :: es => e.Sound ∧ EntriesSound es
termination_by structural es => es

end

end Expr

namespace Spelling

/-- What is no assignment holds together everywhere. -/
theorem holds_canonical {e : Expr} (he : e.isAssign = false) (place : Place) : canonical.Holds place e := by
  cases e with
  | binary _ _ _ | unary _ _ => exact .inl rfl
  | assign _ _ => cases he
  | _ => exact .inr place.minimum_lt

mutual

theorem suits_canonical : ∀ (e : Expr), e.Sound → canonical.Suits e
  | .literal (.number _), h => Decimal.parse?_number h
  | .literal (.string _), _ | .literal (.bool _), _ | .literal .null, _ | .identifier _, _ => trivial
  | .binary _ l r, ⟨⟨hl, hsl⟩, hr, hsr⟩ =>
    ⟨⟨holds_canonical hl _, suits_canonical l hsl⟩, holds_canonical hr _, suits_canonical r hsr⟩
  | .unary _ e, ⟨he, hs⟩ => ⟨holds_canonical he _, suits_canonical e hs⟩
  | .assign _ value, ⟨_, hv⟩ => by
    have hholds : canonical.Holds (.right .assign) value := by
      cases value with
      | assign _ _ => exact .inr (Nat.lt_succ_self 49)
      | _ => exact holds_canonical rfl _
    exact ⟨hholds, suits_canonical value hv⟩
  | .call _ callee arguments, ⟨⟨hc, hs⟩, hargs⟩ =>
    ⟨⟨holds_canonical hc _, suits_canonical callee hs⟩, suitsAll_canonical arguments hargs⟩
  | .array elements, h => suitsAll_canonical elements h
  | .map entries, h => suitsEntries_canonical entries h
  | .index object key, ⟨⟨ho, hs⟩, hk⟩ =>
    ⟨⟨holds_canonical ho _, suits_canonical object hs⟩, suits_canonical key hk⟩
termination_by structural e => e

theorem suitsAll_canonical : ∀ (es : List Expr), Expr.ListSound es → canonical.SuitsAll es
  | [], _ => trivial
  | e :: es, ⟨he, hes⟩ => ⟨suits_canonical e he, suitsAll_canonical es hes⟩
termination_by structural es => es

theorem suitsEntries_canonical : ∀ (es : List (String × Expr)), Expr.EntriesSound es → canonical.SuitsEntries es
  | [], _ => trivial
  | (_, e) :: es, ⟨he, hes⟩ => ⟨suits_canonical e he, suitsEntries_canonical es hes⟩
termination_by structural es => es

end

end Spelling

/-! ### Statements -/

/-- A word, which may be a keyword. -/
def Lexeme.ofWord (s : String) : Lexeme :=
  match Keyword.ofText? s with
  | some k => .keyword k
  | none => .name s

def Param.lexemes (p : Param) : List Lexeme :=
  .name p.name :: match p.type with
    | some type => [.mark .colon, .ofWord type]
    | none => []

/-- A number and its sign. -/
def numberLexemes (x : Float) : List Lexeme :=
  if Decimal.belowZero x then [.mark .minus, .number (Decimal.number (-x))] else [.number (Decimal.number x)]

def TraitEntry.lexemes (e : TraitEntry) : List Lexeme := .name e.key.name :: .mark .colon :: numberLexemes e.value

namespace Stmt

def inBraces (ls : List Lexeme) : List Lexeme := .mark .leftBrace :: (ls ++ [.mark .rightBrace])

/-- The lexemes behind the parameters of a function. -/
def resultLexemes : Option String → List Lexeme
  | some type => [.mark .arrow, .ofWord type]
  | none => []

mutual

def lexemes : Stmt → List Lexeme
  | expr _ e => e.lexemes ++ [.mark .semicolon]
  | bind _ name value => .keyword .letKey :: .name name :: .mark .equal :: (value.lexemes ++ [.mark .semicolon])
  | function ⟨_, name, params, returnType, body⟩ =>
    .keyword .fnKey :: .name name :: .mark .leftParen ::
      (Parser.joined (params.map Param.lexemes) ++ [.mark .rightParen] ++
        (resultLexemes returnType ++ inBraces (listLexemes body)))
  | cond _ test yes no =>
    .keyword .ifKey :: (test.lexemes ++ (inBraces (listLexemes yes) ++ elseLexemes no))
  | whileLoop _ test body => .keyword .whileKey :: (test.lexemes ++ inBraces (listLexemes body))
  | forEach _ name iterable body =>
    .keyword .forKey :: .name name :: .keyword .inKey :: (iterable.lexemes ++ inBraces (listLexemes body))
  | block _ body => inBraces (listLexemes body)
  | personality _ entries => .keyword .personalityKey :: inBraces (Parser.joined (entries.map TraitEntry.lexemes))
  | giveBack _ (some e) => .keyword .returnKey :: (e.lexemes ++ [.mark .semicolon])
  | giveBack _ none => [.keyword .returnKey, .mark .semicolon]
  | leave _ => [.keyword .breakKey, .mark .semicolon]
  | again _ => [.keyword .continueKey, .mark .semicolon]
termination_by structural s => s

def listLexemes : List Stmt → List Lexeme
  | [] => []
  | s :: ss => s.lexemes ++ listLexemes ss
termination_by structural ss => ss

def elseLexemes : Option Stmt → List Lexeme
  | none => []
  | some s => .keyword .elseKey :: s.lexemes
termination_by structural no => no

end

theorem listLexemes_eq (ss : List Stmt) : listLexemes ss = ss.flatMap lexemes := by
  induction ss with
  | nil => rfl
  | cons s ss ih => rw [listLexemes, ih, List.flatMap_cons]

end Stmt

/-- The entry without its coordinate. Both zeros are one value. -/
def TraitEntry.bare (e : TraitEntry) : TraitEntry :=
  ⟨e.key, Decimal.oneZero e.value, .start⟩

namespace Stmt

mutual

/-- The statement without its coordinates. -/
def bare : Stmt → Stmt
  | expr _ e => expr .start e.bare
  | bind _ name value => bind .start name value.bare
  | function ⟨_, name, params, returnType, body⟩ => function ⟨.start, name, params, returnType, listBare body⟩
  | cond _ test yes no => cond .start test.bare (listBare yes) (elseBare no)
  | whileLoop _ test body => whileLoop .start test.bare (listBare body)
  | forEach _ name iterable body => forEach .start name iterable.bare (listBare body)
  | block _ body => block .start (listBare body)
  | personality _ entries => personality .start (entries.map TraitEntry.bare)
  | giveBack _ (some e) => giveBack .start (some e.bare)
  | giveBack _ none => giveBack .start none
  | leave _ => leave .start
  | again _ => again .start
termination_by structural s => s

def listBare : List Stmt → List Stmt
  | [] => []
  | s :: ss => s.bare :: listBare ss
termination_by structural ss => ss

def elseBare : Option Stmt → Option Stmt
  | none => none
  | some s => some s.bare
termination_by structural no => no

end

theorem listBare_eq {ss as : List Stmt} (h : List.Forall₂ (fun s a => a.bare = s.bare) ss as) :
    listBare as = listBare ss := by
  induction h with
  | nil => rfl
  | cons h _ ih => rw [listBare, listBare, h, ih]

end Stmt

/-- The program without its coordinates. -/
def Program.bare (p : Program) : Program := ⟨Stmt.listBare p.statements⟩

/-! ### Soundness -/

/-- A name, or one of the two keywords that are types. -/
def IsType (s : String) : Prop := s = "null" ∨ s = "fn" ∨ Lexer.IsName s

def Param.Sound (p : Param) : Prop := Lexer.IsName p.name ∧ ∀ type ∈ p.type, IsType type

def TraitEntry.Sound (e : TraitEntry) : Prop := Decimal.isFinite e.value = true

namespace Stmt

mutual

/-- The statement can be read back where it stands. -/
def Sound (around : Parser.Surroundings) : Stmt → Prop
  | expr _ e => e.opensBrace = false ∧ e.Sound
  | bind _ name value => Lexer.IsName name ∧ value.Sound
  | function ⟨_, name, params, returnType, body⟩ =>
    Lexer.IsName name ∧ (∀ p ∈ params, p.Sound) ∧ (∀ type ∈ returnType, IsType type) ∧ ListSound ⟨true, false⟩ body
  | cond _ test yes no => test.Sound ∧ ListSound ⟨true, around.inLoop⟩ yes ∧ ElseSound around no
  | whileLoop _ test body => test.Sound ∧ ListSound ⟨true, true⟩ body
  | forEach _ name iterable body => Lexer.IsName name ∧ iterable.Sound ∧ ListSound ⟨true, true⟩ body
  | block _ body => ListSound ⟨true, around.inLoop⟩ body
  | personality _ entries => around.inBlock = false ∧ ∀ e ∈ entries, e.Sound
  | giveBack _ (some e) => e.Sound
  | giveBack _ none => True
  | leave _ | again _ => around.inLoop = true
termination_by structural s => s

def ListSound (around : Parser.Surroundings) : List Stmt → Prop
  | [] => True
  | s :: ss => s.Sound around ∧ ListSound around ss
termination_by structural ss => ss

/-- Only a conditional or a block stands behind `else`. -/
def ElseSound (around : Parser.Surroundings) : Option Stmt → Prop
  | none => True
  | some (cond place test yes no) => Sound around (cond place test yes no)
  | some (block place body) => Sound around (block place body)
  | some _ => False
termination_by structural no => no

end

end Stmt

end Persona
