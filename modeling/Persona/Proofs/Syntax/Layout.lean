import Mathlib
import Persona.Proofs.Syntax.Abreast
import Persona.Proofs.Syntax.Relocation
import Persona.Token.Lexer

/-! What the layout and the limit change in a parsing.

A token's place is only recorded, but for the one test whether a value stands on the line of its
`return`. So texts of the same lexemes are parsed to trees that look the same, whichever production they
take. The limit is only compared with the room that is used up: a larger one changes a parsing that
failed for want of room, and no other. -/
namespace Persona

namespace Parser

namespace Abreast

variable {A : Abreast} {i : Nat}

/-! ### Expressions -/

/-- Two expressions that look the same. -/
def SameExpr (A : Abreast) (e e' : Expr) : Prop := e.relocate A.view = e'.relocate A.view

/-- What looks like a name is one. -/
theorem SameExpr.identifier_or {e e' : Expr} (h : A.SameExpr e e') :
    (∃ x x', e = .identifier x ∧ e' = .identifier x') ∨ (∀ x, e ≠ .identifier x) ∧ ∀ x, e' ≠ .identifier x := by
  unfold SameExpr at h
  cases e <;> cases e' <;> simp [Expr.relocate] at h ⊢

section
variable {expr expr' : Parser Expr}

theorem alike_mapEntry (hexpr : A.Alike A.SameExpr expr expr') :
    A.Alike (fun e e' => e.1 = e'.1 ∧ A.SameExpr e.2 e'.2) (mapEntry expr) (mapEntry expr') := by
  have hvalue : ∀ key : String, A.Alike (fun e e' => e.1 = e'.1 ∧ A.SameExpr e.2 e'.2)
      (do expect (.mark .colon); return (key, ← expr)) (do expect (.mark .colon); return (key, ← expr')) :=
    fun key => (alike_expect _).bind fun _ _ _ => hexpr.bind fun e e' he => .pure ⟨rfl, he⟩
  have hfail : ∀ fault, A.Alike Eq (failHere fault : Parser String) (failHere fault) := alike_failHere
  refine alike_peekLexeme.same fun l? => ?_
  split
  · exact alike_advance.bind fun _ _ _ => hvalue _
  · exact alike_advance.bind fun _ _ _ => hvalue _
  · refine (hfail _).same fun key => ?_
    exact hvalue key
  · refine (hfail _).same fun key => ?_
    exact hvalue key

theorem alike_base (hexpr : A.Alike A.SameExpr expr expr') : A.Alike A.SameExpr (base expr) (base expr') := by
  refine alike_peek.bind ?_
  rintro _ _ (⟨hlexeme, hplace⟩ | _)
  · next t t' =>
    -- One lexeme decides for both of them.
    simp only [← hlexeme]
    split
    · next text _ =>
      refine (alike_numberValue text).same fun x => ?_
      exact .pure rfl
    · exact alike_advance.bind fun _ _ _ => .pure rfl
    · exact alike_advance.bind fun _ _ _ => .pure rfl
    · exact alike_advance.bind fun _ _ _ => .pure rfl
    · exact alike_advance.bind fun _ _ _ => .pure rfl
    · next name _ =>
      have hname : A.SameExpr (.identifier ⟨name, t.start.coordinate⟩) (.identifier ⟨name, t'.start.coordinate⟩) := by
        simp only [SameExpr, Expr.relocate, hplace]
      exact alike_advance.bind fun _ _ _ => .pure hname
    · refine alike_advance.bind fun _ _ _ => hexpr.bind fun e e' he => ?_
      exact (alike_expectClosing _ _).bind fun _ _ _ => .pure he
    · refine alike_advance.bind fun _ _ _ => (alike_row hexpr _).bind fun es es' hes => .pure ?_
      simp only [SameExpr, Expr.relocate, Expr.listRelocate_congr hes]
    · refine alike_advance.bind fun _ _ _ => (alike_body (alike_mapEntry hexpr) _).bind fun es es' hes => .pure ?_
      simp only [SameExpr, Expr.relocate, Expr.entriesRelocate_congr hes]
    · exact alike_failHere _
  · exact alike_failHere _

theorem alike_postfixes (hexpr : A.Alike A.SameExpr expr expr') {place place' : Coordinate}
    (hplace : A.SamePlace place place') {bound bound' : List Token} (hbound : SameText bound bound')
    {e e' : Expr} (he : A.SameExpr e e') :
    A.Alike A.SameExpr (postfixes expr place bound e) (postfixes expr' place' bound' e') := by
  induction hbound generalizing e e' with
  | nil => exact .pure he
  | cons _ _ ih =>
    refine alike_peekLexeme.same fun l? => ?_
    split
    · refine alike_advance.bind fun _ _ _ => (alike_row hexpr _).bind fun es es' hes => ih ?_
      simp only [SameExpr, Expr.relocate] at he ⊢
      rw [hplace, he, Expr.listRelocate_congr hes]
    · refine alike_advance.bind fun _ _ _ => hexpr.bind fun key key' hkey => ?_
      refine (alike_expectClosing _ _).bind fun _ _ _ => ih ?_
      simp only [SameExpr, Expr.relocate] at he hkey ⊢
      rw [he, hkey]
    · exact .pure he

theorem alike_primary (hexpr : A.Alike A.SameExpr expr expr') : A.Alike A.SameExpr (primary expr) (primary expr') :=
  alike_here.bind fun _ _ hplace => (alike_base hexpr).bind fun _ _ he =>
    alike_get.bind fun _ _ hbound => alike_postfixes hexpr hplace hbound he

theorem alike_operators {operand operand' : Nat → Parser Expr}
    (hoperand : ∀ minimum, A.Alike A.SameExpr (operand minimum) (operand' minimum)) {minimum : Nat}
    {bound bound' : List Token} (hbound : SameText bound bound') {e e' : Expr} (he : A.SameExpr e e') :
    A.Alike A.SameExpr (operators operand minimum bound e) (operators operand' minimum bound' e') := by
  induction hbound generalizing e e' with
  | nil => exact .pure he
  | cons _ _ ih =>
    refine fun i => keeps_peekLexeme.bind ?_
    rintro j l? _ ⟨rfl, rfl, hl⟩
    split
    · exact .ok he
    next c hc =>
    split
    · exact .ok he
    obtain ⟨t, ht⟩ : ∃ t, A.first[j]? = some t := by
      cases ht : A.first[j]? with
      | none => simp [hl, ht] at hc
      | some t => exact ⟨t, rfl⟩
    refine keeps_here.bind ?_
    rintro _ _ _ ⟨rfl, rfl, rfl⟩
    refine (alike_advance _).bind fun _ _ _ _ => (hoperand _ _).bind fun _ r r' hr => ?_
    cases c with
    | binary op =>
      refine ih ?_ _
      simp only [SameExpr, Expr.relocate] at he hr ⊢
      rw [he, hr]
    | assign =>
      obtain ⟨x, x', rfl, rfl⟩ | ⟨hx, hx'⟩ := he.identifier_or
      · refine ih ?_ _
        simp only [SameExpr, Expr.relocate, Expr.identifier.injEq] at he hr ⊢
        rw [he, hr]
      · split
        · next h => cases h
        · exact absurd rfl (hx _)
        · exact keeps_failAt _ ht _

theorem alike_unary {room room' : Nat}
    (hexpr : A.Alike A.SameExpr (expression A.limit room 0) (expression (A.limit + A.extra) room' 0))
    (hoperand : A.Alike A.SameExpr (operand A.limit room) (operand (A.limit + A.extra) room')) :
    A.Alike A.SameExpr (unary A.limit room) (unary (A.limit + A.extra) room') := by
  have hsign : ∀ op, A.Alike A.SameExpr (do return .unary op (← operand A.limit room))
      (do return .unary op (← operand (A.limit + A.extra) room')) := by
    refine fun op => hoperand.bind fun e e' he => .pure ?_
    simp only [SameExpr, Expr.relocate] at he ⊢
    rw [he]
  rw [unary, unary]
  refine alike_peekLexeme.same fun l? => ?_
  split
  · exact hsign _
  · exact hsign _
  · exact alike_primary hexpr

/-- The room of the second, where the first has none. -/
theorem room_or (A : Abreast) : (0 < A.extra ∧ ∃ room', 0 + A.extra = room' + 1) ∨ A.extra = 0 := by
  cases hextra : A.extra with
  | zero => exact .inr rfl
  | succ k => exact .inl ⟨Nat.zero_lt_succ k, k, Nat.zero_add _⟩

theorem alike_expression (A : Abreast) (room : Nat) :
    (∀ minimum, A.Alike A.SameExpr (expression A.limit room minimum)
      (expression (A.limit + A.extra) (room + A.extra) minimum)) ∧
    A.Alike A.SameExpr (unary A.limit room) (unary (A.limit + A.extra) (room + A.extra)) := by
  induction room with
  | zero =>
    have hexpr : ∀ minimum, A.Alike A.SameExpr (expression A.limit 0 minimum)
        (expression (A.limit + A.extra) (0 + A.extra) minimum) := by
      intro minimum
      rw [expression]
      obtain ⟨hextra, -⟩ | hextra := A.room_or
      · exact .noRoom hextra
      · rw [hextra, Nat.add_zero, Nat.add_zero, expression]
        exact alike_failHere _
    refine ⟨hexpr, alike_unary (hexpr 0) ?_⟩
    obtain ⟨hextra, room', hroom⟩ | hextra := A.room_or
    · rw [hroom, operand, operand]
      exact alike_advance.bind fun _ _ _ => .noRoom hextra
    · rw [hextra, Nat.add_zero, Nat.add_zero, operand]
      exact alike_advance.bind fun _ _ _ => alike_failHere _
  | succ room ih =>
    obtain ⟨hoperand, hunary⟩ := ih
    rw [Nat.add_right_comm]
    have hexpr : ∀ minimum, A.Alike A.SameExpr (expression A.limit (room + 1) minimum)
        (expression (A.limit + A.extra) (room + A.extra + 1) minimum) := by
      intro minimum
      rw [expression, expression]
      exact hunary.bind fun _ _ hleft => alike_get.bind fun _ _ hbound => alike_operators hoperand hbound hleft
    refine ⟨hexpr, alike_unary (hexpr 0) ?_⟩
    rw [operand, operand]
    exact alike_advance.bind fun _ _ _ => hunary

end

/-! ### Statements -/

/-- Two statements that look the same. -/
def SameStmt (A : Abreast) (s s' : Stmt) : Prop := s.relocate A.view = s'.relocate A.view

/-- Two lists of statements that look the same. -/
def SameBody (A : Abreast) (ss ss' : List Stmt) : Prop :=
  Stmt.listRelocate A.view ss = Stmt.listRelocate A.view ss'

theorem alike_param : A.Alike Eq param param := by
  refine alike_expectName.same fun name => ?_
  refine (alike_accept _).same fun colon => ?_
  have hrest : ∀ type : Option String, A.Alike Eq (Pure.pure ⟨name, type⟩ : Parser Param) (Pure.pure ⟨name, type⟩) :=
    fun _ => .pure rfl
  cases colon with
  | true => exact (alike_expectType.map fun _ _ h => congrArg some h).same hrest
  | false => exact hrest none

theorem alike_traitValue : A.Alike Eq traitValue traitValue := by
  refine (alike_accept _).same fun negative => ?_
  refine alike_peekLexeme.same fun l? => ?_
  split
  · next text =>
    refine (alike_numberValue text).same fun x => ?_
    exact .pure rfl
  · exact alike_failHere _
  · exact alike_failHere _

/-- Two entries that look the same. -/
def SameEntry (A : Abreast) (e e' : TraitEntry) : Prop := e.relocate A.view = e'.relocate A.view

theorem alike_traitEntry : A.Alike A.SameEntry traitEntry traitEntry := by
  refine fun i => keeps_here.bind ?_
  rintro _ _ _ ⟨rfl, rfl, rfl⟩
  refine keeps_expectName.bind ?_
  rintro j name _ ⟨rfl, t, ht⟩
  split
  · exact keeps_failAt _ ht _
  next key _ =>
  refine (alike_expect _).bind (fun _ _ _ => alike_traitValue.same fun value => .pure ?_) _
  simp only [SameEntry, TraitEntry.relocate, A.view_placeAt]

theorem alike_personality {around : Surroundings} :
    A.Alike (List.Forall₂ A.SameEntry) (personality around) (personality around) := by
  unfold personality
  split
  · exact (alike_failHere _ : A.Alike (fun _ _ => False) _ _).bind fun _ _ h => h.elim
  · refine alike_advance.bind fun _ _ _ => (alike_expect _).bind fun _ _ _ => ?_
    exact alike_body alike_traitEntry _

/-- Two values, or none, that look the same. -/
def SameValue (A : Abreast) (value value' : Option Expr) : Prop :=
  value.map (Expr.relocate A.view) = value'.map (Expr.relocate A.view)

/-- What follows a `return` is a value in both texts or in neither. -/
theorem keeps_giveBack {expr expr' : Parser Expr} (hexpr : A.Alike A.SameExpr expr expr') {t : Token}
    (ht : A.first[i]? = some t) (hreturn : t.lexeme = .keyword .returnKey) :
    A.Keeps (i + 1) (returned expr (placeAt A.first i).line) (returned expr' (placeAt A.second i).line)
      fun _ => A.SameValue := by
  obtain ⟨t', ht', -⟩ := exists_second ht
  refine keeps_peek.bind ?_
  rintro j u? u'? ⟨rfl, hu, hu', hsame⟩
  cases hsame with
  | none => exact .ok rfl
  | @some u u' hsame =>
    have hline := A.returns i t u t' u' ht hu.symm ht' hu'.symm hreturn
    have hplace : (placeAt A.first i).line = t.start.line := by
      rw [placeAt, ht]
      rfl
    have hplace' : (placeAt A.second i).line = t'.start.line := by
      rw [placeAt, ht']
      rfl
    simp only [hplace, hplace', hsame.1, hline]
    split
    · have hsome : ∀ e e', A.SameExpr e e' → A.SameValue (some e) (some e') := fun _ _ he => congrArg some he
      exact hexpr.map hsome _
    · exact .ok rfl

/-- The statements of a block, given how its statements are read with less room. -/
theorem alike_block {around : Surroundings} {room : Nat}
    (hstatement : ∀ inner, room = inner + 1 → A.Alike A.SameStmt (statement A.limit ⟨true, around.inLoop⟩ inner)
      (statement (A.limit + A.extra) ⟨true, around.inLoop⟩ (inner + A.extra))) :
    A.Alike A.SameBody (block A.limit around room) (block (A.limit + A.extra) around (room + A.extra)) := by
  cases room with
  | zero =>
    rw [block]
    obtain ⟨hextra, room', hroom⟩ | hextra := A.room_or
    · rw [hroom, block]
      exact (alike_expect _).bind fun _ _ _ => .noRoom hextra
    · rw [hextra, Nat.add_zero, Nat.add_zero, block]
      exact (alike_expect _).bind fun _ _ _ => alike_failHere _
  | succ room =>
    rw [Nat.add_right_comm, block, block]
    refine (alike_expect _).bind fun _ _ _ => alike_get.bind fun bound bound' hbound => ?_
    refine (alike_statements (hstatement room rfl) hbound .nil).bind fun ss ss' hss => ?_
    exact (alike_expectClosing _ _).bind fun _ _ _ => .pure (Stmt.listRelocate_congr hss)

theorem alike_function {block block' : Parser (List Stmt)} (hblock : A.Alike A.SameBody block block')
    {place place' : Coordinate} (hplace : A.SamePlace place place') :
    A.Alike A.SameStmt (Stmt.function <$> function block place) (Stmt.function <$> function block' place') := by
  have hdecl : A.Alike (fun d d' => A.SameStmt (.function d) (.function d')) (function block place)
      (function block' place') := by
    refine alike_advance.bind fun _ _ _ => alike_expectName.same fun name => ?_
    refine (alike_expect _).bind fun _ _ _ => (alike_body alike_param _).bind fun params params' hparams => ?_
    rw [List.forall₂_eq_eq_eq] at hparams
    obtain rfl := hparams
    have hrest : ∀ type : Option String, A.Alike (fun d d' => A.SameStmt (.function d) (.function d'))
        (do return ⟨place, name, params, type, ← block⟩) (do return ⟨place', name, params, type, ← block'⟩) := by
      intro type
      refine hblock.bind fun ss ss' hss => .pure ?_
      simp only [SameStmt, SameBody, SamePlace, Stmt.relocate] at hplace hss ⊢
      rw [hplace, hss]
    refine (alike_accept _).same fun arrow => ?_
    cases arrow with
    | true => exact (alike_expectType.map fun _ _ h => congrArg some h).same hrest
    | false => exact hrest none
  exact hdecl.map fun _ _ hd => hd

/-- A conditional, given how the chain behind it is read with less room. -/
theorem alike_conditionalStep {around : Surroundings} {room : Nat}
    (hblock : A.Alike A.SameBody (block A.limit around room) (block (A.limit + A.extra) around (room + A.extra)))
    (hchain : ∀ inner, room = inner + 1 → ∀ place place', A.SamePlace place place' →
      A.Alike A.SameStmt (conditional A.limit around inner place)
        (conditional (A.limit + A.extra) around (inner + A.extra) place'))
    {place place' : Coordinate} (hplace : A.SamePlace place place') :
    A.Alike A.SameStmt (conditional A.limit around room place)
      (conditional (A.limit + A.extra) around (room + A.extra) place') := by
  have hcond : ∀ {test test' yes yes' no no'}, A.SameExpr test test' → A.SameBody yes yes' →
      Stmt.elseRelocate A.view no = Stmt.elseRelocate A.view no' →
        A.SameStmt (.cond place test yes no) (.cond place' test' yes' no') := by
    intro test test' yes yes' no no' htest hyes hno
    simp only [SameStmt, SameExpr, SameBody, SamePlace, Stmt.relocate] at htest hyes hplace ⊢
    rw [hplace, htest, hyes, hno]
  rw [conditional, conditional]
  refine alike_advance.bind fun _ _ _ => ((A.alike_expression room).1 0).bind fun test test' htest => ?_
  refine hblock.bind fun yes yes' hyes => (alike_accept _).same fun found => ?_
  cases found with
  | false => exact .pure (hcond htest hyes rfl)
  | true =>
    refine alike_here.bind fun next next' hnext => alike_peekLexeme.same fun l? => ?_
    split
    · cases room with
      | zero =>
        obtain ⟨hextra, room', hroom⟩ | hextra := A.room_or
        · exact .noRoom hextra
        · simp only [hextra]
          exact alike_failHere _
      | succ room =>
        rw [Nat.add_right_comm]
        refine (hchain room rfl _ _ hnext).bind fun no no' hno => .pure (hcond htest hyes ?_)
        exact congrArg some hno
    · refine hblock.bind fun no no' hno => .pure (hcond htest hyes ?_)
      simp only [SamePlace, SameBody, Stmt.elseRelocate, Stmt.relocate] at hnext hno ⊢
      rw [hnext, hno]

theorem alike_conditional {around : Surroundings} {room : Nat}
    (hblock : ∀ inner ≤ room,
      A.Alike A.SameBody (block A.limit around inner) (block (A.limit + A.extra) around (inner + A.extra)))
    {place place' : Coordinate} (hplace : A.SamePlace place place') :
    A.Alike A.SameStmt (conditional A.limit around room place)
      (conditional (A.limit + A.extra) around (room + A.extra) place') := by
  induction room generalizing place place' with
  | zero => exact alike_conditionalStep (hblock 0 (Nat.le_refl _)) (fun _ h => nomatch h) hplace
  | succ room ih =>
    refine alike_conditionalStep (hblock _ (Nat.le_refl _)) (fun inner h place place' hplace => ?_) hplace
    cases h
    exact ih (fun inner hinner => hblock inner (Nat.le_succ_of_le hinner)) hplace

theorem alike_statement (A : Abreast) (around : Surroundings) (room : Nat) :
    A.Alike A.SameStmt (statement A.limit around room) (statement (A.limit + A.extra) around (room + A.extra)) := by
  induction room using Nat.strongRecOn generalizing around with
  | ind room ih =>
    have hblock : ∀ (around : Surroundings), ∀ inner ≤ room,
        A.Alike A.SameBody (block A.limit around inner) (block (A.limit + A.extra) around (inner + A.extra)) := by
      intro around inner hinner
      refine alike_block fun r hr => ih r ?_ _
      omega
    have hexpr := (A.alike_expression room).1 0
    have hend : ∀ s s', A.SameStmt s s' → A.Alike A.SameStmt
        (do discard (accept (.mark .semicolon)); return s) (do discard (accept (.mark .semicolon)); return s') :=
      fun s s' hs => ((alike_accept _).map fun _ _ _ => trivial : A.Alike (fun _ _ => True) _ _).bind
        fun _ _ _ => .pure hs
    have hfail : ∀ fault, A.Alike A.SameStmt (failHere fault) (failHere fault) := alike_failHere
    rw [statement, statement]
    refine fun i => keeps_here.bind ?_
    rintro _ place place' ⟨rfl, hfirst, hsecond⟩
    have hplace : A.view place = A.view place' := by rw [hfirst, hsecond, A.view_placeAt]
    refine keeps_peekLexeme.bind ?_
    rintro i l? _ ⟨rfl, rfl, hl⟩
    split
    · exact (hfail _).bind hend i
    · exact (alike_function (hblock _ _ (Nat.le_refl _)) hplace).bind hend i
    · refine alike_advance.bind (fun _ _ _ => alike_expectName.same fun name => ?_) i
      refine (alike_expect _).bind fun _ _ _ => hexpr.bind fun e e' he => hend _ _ ?_
      simp only [SameStmt, SameExpr, Stmt.relocate] at he ⊢
      rw [hplace, he]
    · exact (alike_conditional (hblock around) hplace).bind hend i
    · refine alike_advance.bind (fun _ _ _ => hexpr.bind fun test test' htest => ?_) i
      refine (hblock _ _ (Nat.le_refl _)).bind fun body body' hbody => hend _ _ ?_
      simp only [SameStmt, SameExpr, SameBody, Stmt.relocate] at htest hbody ⊢
      rw [hplace, htest, hbody]
    · refine alike_advance.bind (fun _ _ _ => alike_expectName.same fun name => ?_) i
      refine (alike_expect _).bind fun _ _ _ => hexpr.bind fun iterable iterable' hiterable => ?_
      refine (hblock _ _ (Nat.le_refl _)).bind fun body body' hbody => hend _ _ ?_
      simp only [SameStmt, SameExpr, SameBody, Stmt.relocate] at hiterable hbody ⊢
      rw [hplace, hiterable, hbody]
    · obtain ⟨t, ht, hreturn⟩ := Option.map_eq_some_iff.1 hl.symm
      refine keeps_advance.bind ?_
      rintro _ _ _ rfl
      rw [hfirst, hsecond]
      refine (keeps_giveBack hexpr ht hreturn).bind fun j value value' hvalue => hend _ _ ?_ j
      simp only [SameStmt, SameValue, Stmt.relocate] at hvalue ⊢
      rw [A.view_placeAt, hvalue]
    · have hleave : A.SameStmt (.leave place) (.leave place') := congrArg Stmt.leave hplace
      split
      · exact alike_advance.bind (fun _ _ _ => hend _ _ hleave) i
      · exact (hfail _).bind hend i
    · have hagain : A.SameStmt (.again place) (.again place') := congrArg Stmt.again hplace
      split
      · exact alike_advance.bind (fun _ _ _ => hend _ _ hagain) i
      · exact (hfail _).bind hend i
    · have hentries : ∀ es es', List.Forall₂ A.SameEntry es es' →
          A.SameStmt (.personality place es) (.personality place' es') := by
        intro es es' hes
        simp only [SameStmt, Stmt.relocate, hplace, TraitEntry.map_relocate_congr hes]
      exact (alike_personality.map hentries).bind hend i
    · have hbody : ∀ ss ss', A.SameBody ss ss' → A.SameStmt (.block place ss) (.block place' ss') := by
        intro ss ss' hss
        simp only [SameStmt, SameBody, Stmt.relocate] at hss ⊢
        rw [hplace, hss]
      exact ((hblock _ _ (Nat.le_refl _)).map hbody).bind hend i
    · have hvalue : ∀ e e', A.SameExpr e e' → A.SameStmt (.expr place e) (.expr place' e') := by
        intro e e' he
        simp only [SameStmt, SameExpr, Stmt.relocate] at he ⊢
        rw [hplace, he]
      exact (hexpr.map hvalue).bind hend i

/-! ### Programs -/

/-- The outcomes of two parsers for whole texts belong together. -/
theorem meets_program (A : Abreast) :
    A.Meets (fun _ p p' => p.relocate A.view = p'.relocate A.view) (program A.limit A.first)
      (program (A.limit + A.extra) A.second) := by
  have hprogram : A.Alike (fun p p' => p.relocate A.view = p'.relocate A.view) (program A.limit)
      (program (A.limit + A.extra)) := by
    refine alike_get.bind fun bound bound' hbound => ?_
    refine (alike_statements (A.alike_statement _ _) hbound .nil).bind fun ss ss' hss => .pure ?_
    simp only [Program.relocate, Stmt.listRelocate_congr hss]
  exact hprogram 0

end Abreast

end Parser

section
variable {ts ts' : List Token}

/-- A larger limit changes nothing but the failures for want of room: a program stays the same, and so does
every other failure, its place included. -/
theorem parse_deeper {limit limit' : Nat} (h : limit ≤ limit') (ts : List Token) :
    (∀ p, parse limit ts = .ok p → parse limit' ts = .ok p) ∧
      ∀ e, parse limit ts = .error e → e.fault ≠ .nestingTooDeep limit → parse limit' ts = .error e := by
  obtain ⟨extra, rfl⟩ := Nat.exists_eq_add_of_le h
  let A : Parser.Abreast := {
    first := ts
    second := ts
    view := id
    limit
    extra
    lexemes := rfl
    views := fun i t t' ht ht' => by rw [Option.some.inj (ht.symm.trans ht')]
    returns := .refl ts }
  have hmeets : A.Meets (fun _ p p' => p.relocate id = p'.relocate id) (Parser.program limit ts)
    (Parser.program (limit + extra) ts) := A.meets_program
  have hparse : ∀ limit, parse limit ts = (·.1) <$> Parser.program limit ts := fun _ => rfl
  rw [hparse, hparse]
  generalize Parser.program limit ts = outcome, Parser.program (limit + extra) ts = outcome' at hmeets ⊢
  cases hmeets with
  | @ok i p p' hsame =>
    rw [Program.relocate_id, Program.relocate_id] at hsame
    exact ⟨fun _ h => hsame ▸ h, fun _ h => nomatch h⟩
  | atEnd fault => exact ⟨fun _ h => (nomatch h), fun _ h _ => h⟩
  | atToken fault ht ht' =>
    rw [Option.some.inj (ht.symm.trans ht')]
    exact ⟨fun _ h => (nomatch h), fun _ h _ => h⟩
  | noRoom place _ _ =>
    refine ⟨fun _ h => (nomatch h), fun _ h hfault => ?_⟩
    cases h
    exact absurd rfl hfault

/-- With more room the sign in front of a name is read as before, and so is what is wrong behind it. -/
theorem parse_deeper_sign : ∃ ts ts' p e, tokenize "!a" = .ok ts ∧ tokenize "!a )" = .ok ts' ∧
    parse 2 ts = .ok p ∧ parse 9 ts = .ok p ∧ parse 2 ts' = .error e ∧ parse 9 ts' = .error e := by
  obtain ⟨ts, hts, hparse⟩ : ∃ ts, tokenize "!a" = .ok ts ∧
      parse 2 ts = .ok ⟨[.expr ⟨1, 1⟩ (.unary .not (.identifier ⟨"a", ⟨1, 2⟩⟩))]⟩ := ⟨_, by cbv, by cbv⟩
  obtain ⟨ts', hts', hfail⟩ : ∃ ts', tokenize "!a )" = .ok ts' ∧
      parse 2 ts' = .error ⟨.unexpectedToken (.mark .rightParen) ["expression"], some ⟨1, 4⟩⟩ := ⟨_, by cbv, by cbv⟩
  have hother : SyntaxFault.unexpectedToken (.mark .rightParen) ["expression"] ≠ .nestingTooDeep 2 := by
    intro h
    cases h
  refine ⟨ts, ts', _, _, hts, hts', hparse, ?_, hfail, ?_⟩
  · exact (parse_deeper (by decide : 2 ≤ 9) ts).1 _ hparse
  · exact (parse_deeper (by decide : 2 ≤ 9) ts').2 _ hfail hother

/-- Both are the end, or the places of the tokens with the same index. -/
def SameSpot (ts ts' : List Token) (place place' : Option Coordinate) : Prop :=
  place = none ∧ place' = none ∨ ∃ (i : Nat) (t t' : Token), ts[i]? = some t ∧ ts'[i]? = some t' ∧
    place = some t.start.coordinate ∧ place' = some t'.start.coordinate

/-- Two texts of the same lexemes are parsed to programs that differ in coordinates only, or fail with the
same fault at the tokens with the same index or both at the end, if behind every `return` the next token
stands on its line in both or in neither. -/
theorem parse_layout (hlexemes : ts.map (·.lexeme) = ts'.map (·.lexeme)) (hreturns : SameReturns ts ts') (limit : Nat) :
    (∃ p p', parse limit ts = .ok p ∧ parse limit ts' = .ok p' ∧
      p.relocate (fun _ => .start) = p'.relocate fun _ => .start) ∨
    ∃ fault place place', parse limit ts = .error ⟨fault, place⟩ ∧ parse limit ts' = .error ⟨fault, place'⟩ ∧
      SameSpot ts ts' place place' := by
  let A : Parser.Abreast := {
    first := ts
    second := ts'
    view := fun _ => .start
    limit
    extra := 0
    lexemes := hlexemes
    views := fun _ _ _ _ _ => rfl
    returns := hreturns }
  have hmeets : A.Meets (fun _ p p' => p.relocate (fun _ => .start) = p'.relocate fun _ => .start)
    (Parser.program limit ts) (Parser.program limit ts') := A.meets_program
  have hparse : ∀ ts, parse limit ts = (·.1) <$> Parser.program limit ts := fun _ => rfl
  rw [hparse, hparse]
  generalize Parser.program limit ts = outcome, Parser.program limit ts' = outcome' at hmeets ⊢
  cases hmeets with
  | ok hsame => exact .inl ⟨_, _, rfl, rfl, hsame⟩
  | atEnd fault => exact .inr ⟨fault, none, none, rfl, rfl, .inl ⟨rfl, rfl⟩⟩
  | atToken fault ht ht' => exact .inr ⟨fault, _, _, rfl, rfl, .inr ⟨_, _, _, ht, ht', rfl, rfl⟩⟩
  | noRoom place _ hextra => exact absurd hextra (Nat.lt_irrefl 0)

theorem parse_layout_spaced : ∃ ts ts' p p', tokenize "return a" = .ok ts ∧ tokenize "\n return  a" = .ok ts' ∧
    parse 2 ts = .ok p ∧ parse 2 ts' = .ok p' ∧ p.relocate (fun _ => .start) = p'.relocate fun _ => .start := by
  let ts : List Token := [⟨.keyword .returnKey, ⟨1, 1, 0⟩, ⟨1, 7, 6⟩⟩, ⟨.name "a", ⟨1, 8, 7⟩, ⟨1, 9, 8⟩⟩]
  let ts' : List Token := [⟨.keyword .returnKey, ⟨2, 2, 2⟩, ⟨2, 8, 8⟩⟩, ⟨.name "a", ⟨2, 10, 10⟩, ⟨2, 11, 11⟩⟩]
  have hlexemes : ts.map (·.lexeme) = ts'.map (·.lexeme) := rfl
  have hts : tokenize "return a" = .ok ts := by cbv
  have hts' : tokenize "\n return  a" = .ok ts' := by cbv
  have hreturns : SameReturns ts ts' := by
    intro i t u t' u' ht hu ht' hu' _
    cases i with
    | zero =>
      cases ht
      cases hu
      cases ht'
      cases hu'
      decide
    | succ i => cases hu
  obtain ⟨p, p', hp, hp', hsame⟩ | ⟨fault, place, place', hfail, -⟩ := parse_layout hlexemes hreturns 2
  · exact ⟨ts, ts', p, p', hts, hts', hp, hp', hsame⟩
  · have hparse : parse 2 ts = .ok ⟨[.giveBack ⟨1, 1⟩ (some (.identifier ⟨"a", ⟨1, 8⟩⟩))]⟩ := by cbv
    cases hparse.symm.trans hfail

end

end Persona
