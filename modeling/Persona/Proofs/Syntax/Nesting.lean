import Persona.Proofs.Syntax.Block
import Persona.Proofs.Syntax.Expression
import Persona.Proofs.Syntax.Result
import Persona.Proofs.Token.Spelled

/-! How high a tree can be.

The limit on nesting counts what is read inside of something: operands behind an operator or a
sign, arguments, keys, blocks. It does not count left operands, nor what is called or indexed,
for the parser has these already when it comes to what follows. So a tree grows with the limit
and with its longest chain of those, and without the chains there is no bound. -/
namespace Persona

/-! ### Heights and chains -/

namespace Expr

mutual

/-- The number of nodes on a longest path. -/
def height : Expr → Nat
  | literal _ | identifier _ => 1
  | binary _ l r => 1 + max l.height r.height
  | unary _ e | assign _ e => 1 + e.height
  | call _ callee arguments => 1 + max callee.height (listHeight arguments)
  | array elements => 1 + listHeight elements
  | map entries => 1 + entriesHeight entries
  | index object key => 1 + max object.height key.height
termination_by structural e => e

def listHeight : List Expr → Nat
  | [] => 0
  | e :: es => max e.height (listHeight es)
termination_by structural es => es

def entriesHeight : List (String × Expr) → Nat
  | [] => 0
  | (_, e) :: es => max e.height (entriesHeight es)
termination_by structural es => es

end

/-- The number of operators, calls and indexings in a row that have this as their left end. -/
def spine : Expr → Nat
  | binary _ l _ => l.spine + 1
  | call _ callee _ => callee.spine + 1
  | index object _ => object.spine + 1
  | _ => 0

mutual

/-- The longest of these rows within an expression. -/
def chain : Expr → Nat
  | literal _ | identifier _ => 0
  | binary _ l r => max (l.spine + 1) (max l.chain r.chain)
  | unary _ e | assign _ e => e.chain
  | call _ callee arguments => max (callee.spine + 1) (max callee.chain (listChain arguments))
  | array elements => listChain elements
  | map entries => entriesChain entries
  | index object key => max (object.spine + 1) (max object.chain key.chain)
termination_by structural e => e

def listChain : List Expr → Nat
  | [] => 0
  | e :: es => max e.chain (listChain es)
termination_by structural es => es

def entriesChain : List (String × Expr) → Nat
  | [] => 0
  | (_, e) :: es => max e.chain (entriesChain es)
termination_by structural es => es

end

theorem spine_le_chain (e : Expr) : e.spine ≤ e.chain := by
  cases e with
  | binary _ l r => exact Nat.le_max_left ..
  | call _ callee arguments => exact Nat.le_max_left ..
  | index object key => exact Nat.le_max_left ..
  | _ => exact Nat.zero_le _

/-- With chains up to `w`, the height of what is read with such room. -/
def Bounded (room : Nat) (e : Expr) : Prop := ∀ w, e.chain ≤ w → e.height ≤ e.spine + 1 + (w + 1) * room

/-- Of what is read inside, also the chain at its left end is bounded. -/
theorem height_le_of_within {room w : Nat} {e : Expr} (h : Parser.Within Bounded room e) (hw : e.chain ≤ w) :
    e.height ≤ (w + 1) * room := by
  obtain ⟨inner, rfl, h⟩ := h
  have hheight := h w hw
  have hspine := Nat.le_trans e.spine_le_chain hw
  rw [Nat.mul_succ]
  omega

theorem listHeight_le {room w : Nat} {es : List Expr} (hes : Parser.All (Parser.Within Bounded room) es)
    (hw : listChain es ≤ w) : listHeight es ≤ (w + 1) * room := by
  induction es with
  | nil => exact Nat.zero_le _
  | cons e es ih =>
    obtain ⟨he, hes⟩ := List.forall_mem_cons.1 hes
    obtain ⟨hchain, hchains⟩ := Nat.max_le.1 hw
    exact Nat.max_le.2 ⟨height_le_of_within he hchain, ih hes hchains⟩

theorem entriesHeight_le {room w : Nat} {es : List (String × Expr)}
    (hes : Parser.All (fun e => Parser.Within Bounded room e.2) es) (hw : entriesChain es ≤ w) :
    entriesHeight es ≤ (w + 1) * room := by
  induction es with
  | nil => exact Nat.zero_le _
  | cons e es ih =>
    obtain ⟨he, hes⟩ := List.forall_mem_cons.1 hes
    obtain ⟨hchain, hchains⟩ := Nat.max_le.1 hw
    exact Nat.max_le.2 ⟨height_le_of_within he hchain, ih hes hchains⟩

/-- All forms of expressions stay below the bound: what is on the left adds to the chain, all
else to the room. -/
theorem bounded_forms : Parser.ExprForms (fun _ => True) Bounded where
  number _ _ _ _ := Nat.le_add_right ..
  string _ _ _ := Nat.le_add_right ..
  bool _ _ := Nat.le_add_right ..
  null _ _ := Nat.le_add_right ..
  identifier _ _ _ := Nat.le_add_right ..
  array hes w hw := by
    have hheight := listHeight_le hes hw
    simp only [height, spine]
    omega
  map hes w hw := by
    have hheight := entriesHeight_le hes hw
    simp only [height, spine]
    omega
  call hcallee hes w hw := by
    obtain ⟨-, hw⟩ := Nat.max_le.1 hw
    obtain ⟨hcallee', hes'⟩ := Nat.max_le.1 hw
    have hheight := hcallee w hcallee'
    have hheights := listHeight_le hes hes'
    simp only [height, spine]
    omega
  index hobject hkey w hw := by
    obtain ⟨-, hw⟩ := Nat.max_le.1 hw
    obtain ⟨hobject', hkey'⟩ := Nat.max_le.1 hw
    have hheight := hobject w hobject'
    have hheights := height_le_of_within hkey hkey'
    simp only [height, spine]
    omega
  unary he w hw := by
    have hheight := height_le_of_within he hw
    simp only [height, spine]
    omega
  binary hl hr w hw := by
    obtain ⟨-, hw⟩ := Nat.max_le.1 hw
    obtain ⟨hl', hr'⟩ := Nat.max_le.1 hw
    have hheight := hl w hl'
    have hheights := height_le_of_within hr hr'
    simp only [height, spine]
    omega
  assign _ hr w hw := by
    have hheight := height_le_of_within hr hw
    simp only [height, spine]
    omega
  enclosed he w hw := by
    have hheight := height_le_of_within he hw
    omega

end Expr

namespace Stmt

mutual

def height : Stmt → Nat
  | expr _ e | bind _ _ e => 1 + e.height
  | function ⟨_, _, _, _, body⟩ => 1 + listHeight body
  | cond _ test yes no => 1 + max test.height (max (listHeight yes) (elseHeight no))
  | whileLoop _ test body => 1 + max test.height (listHeight body)
  | forEach _ _ iterable body => 1 + max iterable.height (listHeight body)
  | block _ body => 1 + listHeight body
  | giveBack _ (some e) => 1 + e.height
  | giveBack _ none | personality _ _ | leave _ | again _ => 1
termination_by structural s => s

def listHeight : List Stmt → Nat
  | [] => 0
  | s :: ss => max s.height (listHeight ss)
termination_by structural ss => ss

def elseHeight : Option Stmt → Nat
  | none => 0
  | some s => s.height
termination_by structural no => no

end

mutual

/-- The longest chain within a statement. -/
def chain : Stmt → Nat
  | expr _ e | bind _ _ e => e.chain
  | function ⟨_, _, _, _, body⟩ => listChain body
  | cond _ test yes no => max test.chain (max (listChain yes) (elseChain no))
  | whileLoop _ test body => max test.chain (listChain body)
  | forEach _ _ iterable body => max iterable.chain (listChain body)
  | block _ body => listChain body
  | giveBack _ (some e) => e.chain
  | giveBack _ none | personality _ _ | leave _ | again _ => 0
termination_by structural s => s

def listChain : List Stmt → Nat
  | [] => 0
  | s :: ss => max s.chain (listChain ss)
termination_by structural ss => ss

def elseChain : Option Stmt → Nat
  | none => 0
  | some s => s.chain
termination_by structural no => no

end

/-- With chains up to `w`, the height of what is read with such room, wherever it stands. -/
def Bounded (_ : Parser.Surroundings) (room : Nat) (s : Stmt) : Prop :=
  ∀ w, s.chain ≤ w → s.height ≤ 1 + (w + 2) * room

theorem listHeight_le {around : Parser.Surroundings} {room w : Nat} {ss : List Stmt}
    (hss : Parser.All (Bounded around room) ss) (hw : listChain ss ≤ w) : listHeight ss ≤ 1 + (w + 2) * room := by
  induction ss with
  | nil => exact Nat.zero_le _
  | cons s ss ih =>
    obtain ⟨hs, hss⟩ := List.forall_mem_cons.1 hss
    obtain ⟨hchain, hchains⟩ := Nat.max_le.1 hw
    exact Nat.max_le.2 ⟨hs w hchain, ih hss hchains⟩

/-- A block has room for itself. -/
theorem bodyHeight_le {around : Parser.Surroundings} {room w : Nat} {ss : List Stmt}
    (hss : Parser.Body Bounded around room ss) (hw : listChain ss ≤ w) : 1 + listHeight ss ≤ (w + 2) * room := by
  obtain ⟨inner, rfl, hss⟩ := hss
  have hheight := listHeight_le hss hw
  rw [Nat.mul_succ]
  omega

theorem exprHeight_le {room w : Nat} {e : Expr} (he : Parser.Within Expr.Bounded room e) (hw : e.chain ≤ w) :
    e.height ≤ (w + 2) * room :=
  Nat.le_trans (Expr.height_le_of_within he hw) (Nat.mul_le_mul_right _ (Nat.le_succ _))

theorem bounded_forms : Parser.StmtForms (fun _ => True) Expr.Bounded Bounded where
  expr he w hw := Nat.add_le_add_left (exprHeight_le he hw) 1
  bind _ he w hw := Nat.add_le_add_left (exprHeight_le he hw) 1
  function _ _ _ hbody w hw := by
    have hheight := bodyHeight_le hbody hw
    simp only [height]
    omega
  cond htest hyes w hw := by
    obtain ⟨htest', hw⟩ := Nat.max_le.1 hw
    have hheight := exprHeight_le htest htest'
    have hheights := bodyHeight_le hyes (Nat.max_le.1 hw).1
    simp only [height, elseHeight]
    omega
  condElse htest hyes hno w hw := by
    obtain ⟨htest', hw⟩ := Nat.max_le.1 hw
    have hheight := exprHeight_le htest htest'
    have hheights := bodyHeight_le hyes (Nat.max_le.1 hw).1
    have hothers := bodyHeight_le hno (Nat.max_le.1 hw).2
    simp only [height, elseHeight]
    omega
  condChain htest hyes hno w hw := by
    obtain ⟨htest', hw⟩ := Nat.max_le.1 hw
    have hheight := exprHeight_le htest htest'
    have hheights := bodyHeight_le hyes (Nat.max_le.1 hw).1
    obtain ⟨inner, rfl, hno⟩ := hno
    have hothers := hno w (Nat.max_le.1 hw).2
    rw [Nat.mul_succ] at hheight hheights ⊢
    rw [height, elseHeight]
    omega
  whileLoop htest hbody w hw := by
    obtain ⟨htest', hbody'⟩ := Nat.max_le.1 hw
    have hheight := exprHeight_le htest htest'
    have hheights := bodyHeight_le hbody hbody'
    simp only [height]
    omega
  forEach _ hiterable hbody w hw := by
    obtain ⟨hiterable', hbody'⟩ := Nat.max_le.1 hw
    have hheight := exprHeight_le hiterable hiterable'
    have hheights := bodyHeight_le hbody hbody'
    simp only [height]
    omega
  block hbody w hw := by
    have hheight := bodyHeight_le hbody hw
    simp only [height]
    omega
  personality _ _ _ _ := Nat.le_add_right ..
  giveBack {_ _ _ e} he w hw := by
    cases e with
    | none => exact Nat.le_add_right ..
    | some e => exact Nat.add_le_add_left (exprHeight_le (he e rfl) hw) 1
  leave _ _ _ := Nat.le_add_right ..
  again _ _ _ := Nat.le_add_right ..

end Stmt

namespace Program

/-- The number of nodes on a longest path from a statement of the program. -/
def height (p : Program) : Nat := Stmt.listHeight p.statements

/-- The most operators, calls and indexings in a row. -/
def chain (p : Program) : Nat := Stmt.listChain p.statements

end Program

/-! ### Chains -/

/-- Calls without arguments, one behind the other. -/
def callText : Nat → String
  | 0 => ""
  | n + 1 => "()" ++ callText n

def callLexemes : Nat → List Lexeme
  | 0 => []
  | n + 1 => .mark .leftParen :: .mark .rightParen :: callLexemes n

open Lexer in
theorem spelled_calls (n : Nat) : Spelled (callText n) (callLexemes n) := by
  induction n with
  | zero => exact fun _ _ _ h => h
  | succ n ih =>
    have hleft : Spelled "(" [.mark .leftParen] := spelled_punctuation (m := .leftParen) rfl
    have hright : Spelled ")" [.mark .rightParen] := spelled_punctuation (m := .rightParen) rfl
    have hpair : Spelled "()" _ := hleft.append hright
    exact hpair.append ih

theorem le_length_callLexemes (n : Nat) : n ≤ (callLexemes n).length := by
  induction n with
  | zero => exact Nat.le_refl 0
  | succ n ih =>
    rw [callLexemes, List.length_cons, List.length_cons]
    omega

namespace Parser

theorem noPostfix_nil : NoPostfix [] := ⟨nofun, nofun⟩

/-- Calls are read in one loop, which takes no room. -/
theorem passes_calls {expr : Parser Expr} {place : Coordinate} {n : Nat} {bound : List Token}
    (hbound : n ≤ bound.length) {e : Expr} :
    Passes .any (postfixes expr place bound e) (callLexemes n) [] (Gives fun e' => e'.height = e.height + n) := by
  induction n generalizing bound e with
  | zero =>
    refine (passes_postfixes_end noPostfix_nil).imp ?_
    rintro _ ⟨_, rfl, rfl⟩
    exact ⟨_, rfl, rfl⟩
  | succ n ih =>
    obtain ⟨t, bound, rfl⟩ := List.exists_cons_of_length_pos (Nat.lt_of_lt_of_le (Nat.zero_lt_succ _) hbound)
    refine passes_peekLexeme (passes_advance ?_)
    have hrow : Passes .any (row .rightParen .missingParen expr) [.mark .rightParen] (callLexemes n ++ [])
        (Gives (· = [])) := by
      have hnone : ∀ x ∈ ([] : List Unit), IsItem .any .rightParen expr [] fun _ => True := nofun
      refine (passes_row (by decide) _ hnone).imp ?_
      rintro _ ⟨as, has, rfl⟩
      cases has
      exact ⟨[], rfl, rfl⟩
    refine hrow.first ?_
    rintro _ rfl
    refine (ih (Nat.le_of_succ_le_succ hbound)).imp ?_
    rintro _ ⟨e', he', rfl⟩
    refine ⟨e', ?_, rfl⟩
    simp only [he', Expr.height, Expr.listHeight]
    omega

theorem passes_callExpression (n : Nat) :
    Passes .any (expression 1 1 0) (.name "f" :: callLexemes n) [] (Gives fun e => e.height = n + 1) := by
  have hbase : Passes .any (base (expression 1 0 0)) [.name "f"] (callLexemes n ++ []) (Gives fun e => e.height = 1) :=
    passes_peek fun start stop => passes_advance (.done rfl)
  have hprimary : Passes .any (primary (expression 1 0 0)) (.name "f" :: callLexemes n) []
      (Gives fun e => e.height = n + 1) := by
    refine passes_place fun place => hbase.first fun e he => passes_get fun bound hbound => ?_
    rw [List.append_nil] at hbound
    refine (passes_calls (hbound ▸ le_length_callLexemes n)).imp ?_
    rintro _ ⟨e', he', rfl⟩
    refine ⟨e', ?_, rfl⟩
    omega
  have hunary : Passes .any (unary 1 0) (.name "f" :: callLexemes n) [] (Gives fun e => e.height = n + 1) := by
    rw [unary]
    exact passes_peekLexeme hprimary
  have hstops : Stops 0 [] := .of_none noPostfix_nil rfl 0
  rw [expression]
  refine hunary.last fun e he => passes_get fun bound _ => (passes_operators_end hstops).imp ?_
  rintro _ ⟨_, rfl, rfl⟩
  exact ⟨_, he, rfl⟩

/-- A program of calls is read with room for one expression. -/
theorem passes_callProgram (n : Nat) :
    Passes .any (program 1) (.name "f" :: callLexemes n) [] (Gives fun p => p.height = n + 2) := by
  have hstatement : Passes .any (statement 1 ⟨false, false⟩ 1) (.name "f" :: callLexemes n) []
      (Gives fun s => s.height = n + 2) := by
    rw [statement]
    refine passes_place fun place => passes_peekLexeme ?_
    have hexpr : Passes .any (Stmt.expr place <$> expression 1 1 0) (.name "f" :: callLexemes n) []
        (Gives fun s => s.height = n + 2) := by
      refine (passes_callExpression n).map fun e he => ?_
      rw [Stmt.height, he]
      omega
    refine hexpr.last fun s hs => ?_
    have hnone : Passes .any (accept (.mark .semicolon)) [] [] (Gives (· = false)) := passes_accept_not (by simp)
    exact (hnone.map (R := fun _ => True) fun _ _ => trivial).last fun _ _ => .done hs
  refine passes_get fun bound hbound => ?_
  obtain ⟨t, bound, rfl⟩ := List.exists_cons_of_length_pos (l := bound) (by rw [hbound]; exact Nat.zero_lt_succ _)
  have hround : Passes .any (statements (statement 1 ⟨false, false⟩ 1) false (t :: bound) []) (.name "f" :: callLexemes n) []
      (Gives fun ss => Stmt.listHeight ss = n + 2) := by
    refine passes_peekLexeme ?_
    refine hstatement.last fun s hs => (passes_statements_end (.inl rfl)).imp ?_
    rintro _ ⟨_, rfl, rfl⟩
    refine ⟨_, ?_, rfl⟩
    simp only [List.reverse_singleton, Stmt.listHeight, hs]
    omega
  exact hround.last fun ss hss => .done hss

end Parser

theorem parse_calls {n : Nat} {ts : List Token} (hts : ts.map (·.lexeme) = .name "f" :: callLexemes n) :
    ∃ p, parse 1 ts = .ok p ∧ p.height = n + 2 := by
  obtain ⟨_, ts', ⟨p, hp, rfl⟩, hrun, -⟩ := Parser.passes_callProgram n ts trivial (by rw [hts, List.append_nil])
  refine ⟨p, ?_, hp⟩
  show (·.1) <$> Parser.program 1 ts = _
  rw [hrun]
  rfl

/-! ### The bound -/

/-- The limit on nesting bounds the height of a program up to its chains. -/
theorem height_le_of_parse {limit : Nat} {ts : List Token} {p : Program} (h : parse limit ts = .ok p) :
    p.height ≤ 1 + (p.chain + 2) * limit := by
  have hall := Parser.of_parse Expr.bounded_forms Stmt.bounded_forms (fun _ _ => trivial) h
  exact Stmt.listHeight_le hall (Nat.le_refl _)

theorem height_le_of_parse_calls :
    ∃ p, parse 1 ((.name "f" :: callLexemes 5).map (⟨·, .start, .start⟩)) = .ok p ∧ p.height = 7 ∧
      p.height ≤ 1 + (p.chain + 2) * 1 := by
  have hlexemes : ((.name "f" :: callLexemes 5).map fun l => (⟨l, .start, .start⟩ : Token)).map (·.lexeme) =
      .name "f" :: callLexemes 5 := rfl
  obtain ⟨p, hparse, hp⟩ := parse_calls hlexemes
  exact ⟨p, hparse, hp, height_le_of_parse hparse⟩

theorem scans_calls (n : Nat) : Lexer.Scans ("f" ++ callText n).toList (.name "f" :: callLexemes n) := by
  have hname : Lexer.IsName "f" := ⟨⟨'f', [], rfl, rfl, nofun⟩, rfl⟩
  have hparted : ∀ rest, rest = [] → Lexer.Parted ((callText n).toList ++ rest) := by
    rintro _ rfl
    cases n with
    | zero => exact nofun
    | succ n =>
      rw [callText, String.toList_append]
      rintro c ⟨⟩
      rfl
  have hall := (Lexer.spells_name hname).append (fun _ _ _ h => spelled_calls n trivial h) hparted rfl (@Lexer.Scans.done [] nofun)
  rwa [List.append_nil, List.append_nil] at hall

/-- No function of the limit bounds the height of all programs that are read with it: calls in a
row are read with a limit of one. -/
theorem height_unbounded : ¬∃ bound : Nat → Nat, ∀ source limit ts p,
    tokenize source = .ok ts → parse limit ts = .ok p → p.height ≤ bound limit := by
  rintro ⟨bound, hbound⟩
  obtain ⟨ts, htokens, hts, -⟩ := tokenize_of_scans (scans_calls (bound 1))
  obtain ⟨p, hparse, hp⟩ := parse_calls hts
  have hle := hbound _ 1 ts p htokens hparse
  omega

end Persona
