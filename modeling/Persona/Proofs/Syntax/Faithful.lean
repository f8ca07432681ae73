import Persona.Proofs.Syntax.Precedence
import Persona.Proofs.Syntax.Printing
import Persona.Proofs.Syntax.Result
import Persona.Proofs.Syntax.Statement
import Persona.Proofs.Token.Written

/-! Canonical text is faithful.

What a parsed program is printed as is read as the same program, if it has the parentheses that
the program needs: the printer puts none around an assignment and none around a map at the start
of a statement. Numbers have to be finite, for an infinite one is printed as a name. -/
namespace Persona

/-! ### Programs that can be printed -/

namespace Expr

mutual

/-- The text has all the parentheses and numbers that the expression needs. -/
def printable : Expr → Bool
  | literal (.number x) => Decimal.isFinite x
  | literal _ | identifier _ => true
  | binary _ l r => (!l.isAssign && l.printable) && (!r.isAssign && r.printable)
  | unary _ e => !e.isAssign && e.printable
  | assign _ value => value.printable
  | call _ callee arguments => (!callee.isAssign && callee.printable) && listPrintable arguments
  | array elements => listPrintable elements
  | map entries => entriesPrintable entries
  | index object key => (!object.isAssign && object.printable) && key.printable
termination_by structural e => e

def listPrintable : List Expr → Bool
  | [] => true
  | e :: es => e.printable && listPrintable es
termination_by structural es => es

def entriesPrintable : List (String × Expr) → Bool
  | [] => true
  | (_, e) :: es => e.printable && entriesPrintable es
termination_by structural es => es

end

end Expr

namespace Stmt

mutual

/-- The text has all the parentheses and numbers that the statement needs. -/
def printable : Stmt → Bool
  | expr _ e => !e.opensBrace && e.printable
  | bind _ _ value => value.printable
  | function ⟨_, _, _, _, body⟩ => listPrintable body
  | cond _ test yes no => test.printable && (listPrintable yes && elsePrintable no)
  | whileLoop _ test body => test.printable && listPrintable body
  | forEach _ _ iterable body => iterable.printable && listPrintable body
  | block _ body => listPrintable body
  | personality _ entries => entries.all fun e => Decimal.isFinite e.value
  | giveBack _ (some e) => e.printable
  | giveBack _ none | leave _ | again _ => true
termination_by structural s => s

def listPrintable : List Stmt → Bool
  | [] => true
  | s :: ss => s.printable && listPrintable ss
termination_by structural ss => ss

def elsePrintable : Option Stmt → Bool
  | none => true
  | some s => s.printable
termination_by structural no => no

end

end Stmt

def Program.printable (p : Program) : Bool := Stmt.listPrintable p.statements

/-! ### Parsed programs -/

open Persona.Parser (All Within Body)

theorem Parser.Says.isWritten {l : Lexeme} (h : Parser.Says (·.lexeme.IsWritten) l) : l.IsWritten := by
  obtain ⟨t, ht, rfl⟩ := h
  exact ht

theorem isType_of_written {type : String} (h : Parser.IsType (·.lexeme.IsWritten) type) : IsType type :=
  h.imp_right (Or.imp_right Parser.Says.isWritten)

theorem Param.sound_of_written {p : Param} (h : Parser.IsParam (·.lexeme.IsWritten) p) : p.Sound :=
  ⟨h.1.isWritten, fun type htype => isType_of_written (h.2 type htype)⟩

namespace Expr

theorem listSound_of_all {room : Nat} {es : List Expr}
    (hes : All (Within (fun _ e => e.printable = true → e.Sound) room) es) (h : listPrintable es = true) : ListSound es := by
  induction es with
  | nil => trivial
  | cons e es ih =>
    obtain ⟨⟨_, -, he⟩, hes⟩ := List.forall_mem_cons.1 hes
    obtain ⟨hprint, hprints⟩ := Bool.and_eq_true_iff.1 h
    exact ⟨he hprint, ih hes hprints⟩

theorem entriesSound_of_all {room : Nat} {es : List (String × Expr)}
    (hes : All (fun e => Within (fun _ e => e.printable = true → e.Sound) room e.2) es)
    (h : entriesPrintable es = true) : EntriesSound es := by
  induction es with
  | nil => trivial
  | cons e es ih =>
    obtain ⟨⟨_, -, he⟩, hes⟩ := List.forall_mem_cons.1 hes
    obtain ⟨hprint, hprints⟩ := Bool.and_eq_true_iff.1 h
    exact ⟨he hprint, ih hes hprints⟩

/-- What is no assignment and can be printed, is sound as a part. -/
theorem sound_part {e : Expr} (he : e.printable = true → e.Sound) (h : (!e.isAssign && e.printable) = true) :
    e.isAssign = false ∧ e.Sound := by
  obtain ⟨hassign, hprint⟩ := Bool.and_eq_true_iff.1 h
  exact ⟨by simpa using hassign, he hprint⟩

/-- What is parsed and can be printed, is sound. -/
theorem sound_forms : Parser.ExprForms (·.lexeme.IsWritten) fun _ e => e.printable = true → e.Sound where
  number htext hx hfinite := by
    obtain ⟨c, cs, hs, hc⟩ := htext.isWritten
    exact Decimal.plain_of_parse? hs hc hx hfinite
  string _ _ := trivial
  bool _ := trivial
  null _ := trivial
  identifier hname _ := hname.isWritten
  array hes h := listSound_of_all hes h
  map hes h := entriesSound_of_all hes h
  call hcallee hes h := by
    obtain ⟨hc, hargs⟩ := Bool.and_eq_true_iff.1 h
    exact ⟨sound_part hcallee hc, listSound_of_all hes hargs⟩
  index hobject hkey h := by
    obtain ⟨ho, hk⟩ := Bool.and_eq_true_iff.1 h
    obtain ⟨_, -, hkey⟩ := hkey
    exact ⟨sound_part hobject ho, hkey hk⟩
  unary he h := by
    obtain ⟨_, -, he⟩ := he
    exact sound_part he h
  binary hl hr h := by
    obtain ⟨hleft, hright⟩ := Bool.and_eq_true_iff.1 h
    obtain ⟨_, -, hr⟩ := hr
    exact ⟨sound_part hl hleft, sound_part hr hright⟩
  assign htarget hvalue h := by
    obtain ⟨_, -, hvalue⟩ := hvalue
    exact ⟨htarget rfl, hvalue h⟩
  enclosed he h := by
    obtain ⟨_, -, he⟩ := he
    exact he h

end Expr

namespace Stmt

/-- Statements that are sound if they can be printed. -/
def SoundIf (around : Parser.Surroundings) (_ : Nat) (s : Stmt) : Prop := s.printable = true → s.Sound around

theorem listSound_of_all {around : Parser.Surroundings} {room : Nat} {ss : List Stmt}
    (hss : All (SoundIf around room) ss) (h : listPrintable ss = true) : ListSound around ss := by
  induction ss with
  | nil => trivial
  | cons s ss ih =>
    obtain ⟨hs, hss⟩ := List.forall_mem_cons.1 hss
    obtain ⟨hprint, hprints⟩ := Bool.and_eq_true_iff.1 h
    exact ⟨hs hprint, ih hss hprints⟩

theorem listSound_of_body {around : Parser.Surroundings} {room : Nat} {ss : List Stmt}
    (hss : Body SoundIf around room ss) (h : listPrintable ss = true) : ListSound ⟨true, around.inLoop⟩ ss := by
  obtain ⟨_, -, hss⟩ := hss
  exact listSound_of_all hss h

theorem sound_forms :
    Parser.StmtForms (·.lexeme.IsWritten) (fun _ e => e.printable = true → e.Sound) SoundIf where
  expr he h := by
    obtain ⟨_, -, he⟩ := he
    obtain ⟨hbrace, hprint⟩ := Bool.and_eq_true_iff.1 h
    exact ⟨by simpa using hbrace, he hprint⟩
  bind hname he h := by
    obtain ⟨_, -, he⟩ := he
    exact ⟨hname.isWritten, he h⟩
  function hname hparams htype hbody h := ⟨hname.isWritten, fun p hp => Param.sound_of_written (hparams p hp),
    fun type hmem => isType_of_written (htype type hmem), listSound_of_body hbody h⟩
  cond htest hyes h := by
    obtain ⟨_, -, htest⟩ := htest
    obtain ⟨ht, h⟩ := Bool.and_eq_true_iff.1 h
    exact ⟨htest ht, listSound_of_body hyes (Bool.and_eq_true_iff.1 h).1, trivial⟩
  condElse htest hyes hno h := by
    obtain ⟨_, -, htest⟩ := htest
    obtain ⟨ht, h⟩ := Bool.and_eq_true_iff.1 h
    obtain ⟨hy, hn⟩ := Bool.and_eq_true_iff.1 h
    exact ⟨htest ht, listSound_of_body hyes hy, listSound_of_body hno hn⟩
  condChain htest hyes hno h := by
    obtain ⟨_, -, htest⟩ := htest
    obtain ⟨_, -, hno⟩ := hno
    obtain ⟨ht, h⟩ := Bool.and_eq_true_iff.1 h
    obtain ⟨hy, hn⟩ := Bool.and_eq_true_iff.1 h
    exact ⟨htest ht, listSound_of_body hyes hy, hno hn⟩
  whileLoop htest hbody h := by
    obtain ⟨_, -, htest⟩ := htest
    obtain ⟨ht, hb⟩ := Bool.and_eq_true_iff.1 h
    exact ⟨htest ht, listSound_of_body hbody hb⟩
  forEach hname hiterable hbody h := by
    obtain ⟨_, -, hiterable⟩ := hiterable
    obtain ⟨hi, hb⟩ := Bool.and_eq_true_iff.1 h
    exact ⟨hname.isWritten, hiterable hi, listSound_of_body hbody hb⟩
  block hbody h := listSound_of_body hbody h
  personality hblock _ h := ⟨hblock, List.all_eq_true.1 h⟩
  giveBack {_ _ _ e} he h := by
    cases e with
    | none => trivial
    | some e =>
      obtain ⟨_, -, he⟩ := he e rfl
      exact he h
  leave hloop _ := hloop
  again hloop _ := hloop

end Stmt

theorem sound_of_parse {source : String} {ts : List Token} (htokens : tokenize source = .ok ts) {limit : Nat}
    {p : Program} (hparse : parse limit ts = .ok p) (hprint : p.printable = true) :
    Stmt.ListSound ⟨false, false⟩ p.statements :=
  Stmt.listSound_of_all
    (Parser.of_parse Expr.sound_forms Stmt.sound_forms (written_of_tokenize htokens) hparse) hprint

/-! ### Coordinates -/

namespace Expr

theorem isAssign_bare (e : Expr) : e.bare.isAssign = e.isAssign := by cases e <;> rfl

theorem opensBrace_bare : ∀ (e : Expr), e.bare.opensBrace = e.opensBrace
  | literal _ | identifier _ | binary _ _ _ | unary _ _ | assign _ _ | array _ | map _ => rfl
  | call _ callee _ => opensBrace_bare callee
  | index object _ => opensBrace_bare object
termination_by structural e => e

mutual

/-- The text does not show coordinates. -/
theorem text_bare : ∀ (e : Expr), e.bare.text = e.text
  | literal _ | identifier _ => rfl
  | binary _ l r => by simp only [bare, text, text_bare l, text_bare r]
  | unary _ e => by simp only [bare, text, text_bare e]
  | assign _ value => by simp only [bare, text, text_bare value]
  | call _ callee arguments => by simp only [bare, text, text_bare callee, listTexts_bare arguments]
  | array elements => by simp only [bare, text, listTexts_bare elements]
  | map entries => by simp only [bare, text, entryTexts_bare entries]
  | index object key => by simp only [bare, text, text_bare object, text_bare key]
termination_by structural e => e

theorem listTexts_bare : ∀ (es : List Expr), listTexts (listBare es) = listTexts es
  | [] => rfl
  | e :: es => by simp only [listBare, listTexts, text_bare e, listTexts_bare es]
termination_by structural es => es

theorem entryTexts_bare : ∀ (es : List (String × Expr)), entryTexts (entriesBare es) = entryTexts es
  | [] => rfl
  | (_, e) :: es => by simp only [entriesBare, entryTexts, text_bare e, entryTexts_bare es]
termination_by structural es => es

end

mutual

theorem printable_bare : ∀ (e : Expr), e.bare.printable = e.printable
  | literal _ | identifier _ => rfl
  | binary _ l r => by simp only [bare, printable, isAssign_bare, printable_bare l, printable_bare r]
  | unary _ e => by simp only [bare, printable, isAssign_bare, printable_bare e]
  | assign _ value => by simp only [bare, printable, printable_bare value]
  | call _ callee arguments => by
    simp only [bare, printable, isAssign_bare, printable_bare callee, listPrintable_bare arguments]
  | array elements => by simp only [bare, printable, listPrintable_bare elements]
  | map entries => by simp only [bare, printable, entriesPrintable_bare entries]
  | index object key => by simp only [bare, printable, isAssign_bare, printable_bare object, printable_bare key]
termination_by structural e => e

theorem listPrintable_bare : ∀ (es : List Expr), listPrintable (listBare es) = listPrintable es
  | [] => rfl
  | e :: es => by simp only [listBare, listPrintable, printable_bare e, listPrintable_bare es]
termination_by structural es => es

theorem entriesPrintable_bare : ∀ (es : List (String × Expr)), entriesPrintable (entriesBare es) = entriesPrintable es
  | [] => rfl
  | (_, e) :: es => by simp only [entriesBare, entriesPrintable, printable_bare e, entriesPrintable_bare es]
termination_by structural es => es

end

end Expr

theorem Program.text_expr (place : Coordinate) (e : Expr) : Program.text ⟨[.expr place e]⟩ = e.bare.text ++ ";\n" := by
  rw [Expr.text_bare]
  show String.join ["" ++ e.text ++ ";\n"] = _
  simp

theorem Program.printable_expr (place : Coordinate) (e : Expr) :
    Program.printable ⟨[.expr place e]⟩ = (!e.bare.opensBrace && e.bare.printable) := by
  simp only [Program.printable, Stmt.listPrintable, Stmt.printable, Bool.and_true, Expr.opensBrace_bare,
    Expr.printable_bare]

theorem exists_tokens {source : String} {ls : List Lexeme}
    (h : (tokenize source).toOption.map (·.map (·.lexeme)) = some ls) :
    ∃ ts, tokenize source = .ok ts ∧ ts.map (·.lexeme) = ls := by
  cases htokens : tokenize source with
  | error _ =>
    rw [htokens] at h
    cases h
  | ok ts =>
    rw [htokens] at h
    exact ⟨ts, rfl, Option.some.inj h⟩

/-! ### Faithful text -/

/-- The text of a parsed program that can be printed is read, with room enough, as the program. -/
theorem reparse_of_parse {source : String} {ts : List Token} (htokens : tokenize source = .ok ts) {limit : Nat}
    {p : Program} (hparse : parse limit ts = .ok p) (hprint : p.printable = true) :
    ∃ ts', tokenize p.text = .ok ts' ∧ ∀ limit', ts'.length ≤ limit' → ∃ p', parse limit' ts' = .ok p' ∧ p'.bare = p.bare := by
  have hsound := sound_of_parse htokens hparse hprint
  obtain ⟨ts', htokens', hts', haligned⟩ := tokenize_of_sound hsound
  exact ⟨ts', htokens', fun limit' hlimit => parse_of_lexemes hsound haligned hts' hlimit⟩


/-- Parentheses only where the table asks for them, numbers as they are printed, and names for keys. -/
def Spelling.light : Spelling := .sparse Decimal.number .name fun _ => .inl rfl

theorem parse_light {source : String} {e : Expr}
    (hnumbers : ∀ x ∈ e.numbers, Decimal.parse? (Decimal.number x) = some x)
    (hbrace : (Spelling.light.plain e).head? ≠ some (.mark .leftBrace))
    (h : (tokenize source).toOption.map (·.map (·.lexeme)) = some (Spelling.light.plain e ++ [.mark .semicolon])) :
    ∃ ts, tokenize source = .ok ts ∧ ∀ limit, ts.length ≤ limit →
      ∃ place e', parse limit ts = .ok ⟨[.expr place e']⟩ ∧ e'.bare = e.bare := by
  obtain ⟨ts, htokens, hts⟩ := exists_tokens h
  have hsuits : Spelling.light.Suits e := Spelling.suits_sparse e hnumbers
  exact ⟨ts, htokens, fun _ hlimit => parse_of_reads (Parser.reads_plain e hsuits) e.strength_pos hbrace hts hlimit⟩

theorem reparse_of_parse_product : ∃ ts p, tokenize "(a - 1) * -f(b) ** a;" = .ok ts ∧ parse ts.length ts = .ok p ∧
    p.printable = true ∧ ∃ ts', tokenize p.text = .ok ts' ∧ ∀ limit', ts'.length ≤ limit' →
      ∃ p', parse limit' ts' = .ok p' ∧ p'.bare = p.bare := by
  have hnumbers : ∀ x ∈ product.numbers, Decimal.parse? (Decimal.number x) = some x := by
    intro x hx
    obtain rfl : x = 1.0 := List.mem_singleton.1 hx
    decide +kernel
  obtain ⟨ts, htokens, hparse⟩ := @parse_light "(a - 1) * -f(b) ** a;" _ hnumbers nofun (by decide +kernel)
  obtain ⟨place, e, hparse, he⟩ := hparse ts.length (Nat.le_refl _)
  have hprint : Program.printable ⟨[.expr place e]⟩ = true := by
    rw [Program.printable_expr, he]
    decide +kernel
  exact ⟨ts, _, htokens, hparse, hprint, reparse_of_parse htokens hparse hprint⟩

/-- `(a = 1) + 2`, which is printed without the parentheses. -/
def sumOfAssignment : Expr :=
  .binary .add (.assign ⟨"a", .start⟩ (.literal (.number 1.0))) (.literal (.number 2.0))

/-- `a = 1 + 2`, which is what the text says. -/
def assignmentOfSum : Expr :=
  .assign ⟨"a", .start⟩ (.binary .add (.literal (.number 1.0)) (.literal (.number 2.0)))

/-- The text of a program is not always read as the program: that of `(a = 1) + 2` is read as an assignment. -/
theorem reparse_differs : ¬ ∀ source ts limit p, tokenize source = .ok ts → parse limit ts = .ok p →
    ∃ ts', tokenize p.text = .ok ts' ∧ ∃ room, ∀ limit', room ≤ limit' → ∃ p', parse limit' ts' = .ok p' ∧ p'.bare = p.bare := by
  intro hall
  have hnumbers : ∀ x ∈ [(1.0 : Float), 2.0], Decimal.parse? (Decimal.number x) = some x := by
    intro x hx
    rcases List.mem_pair.1 hx with rfl | rfl <;> decide +kernel
  obtain ⟨ts, htokens, hparse⟩ := @parse_light "(a = 1) + 2;" sumOfAssignment hnumbers nofun
    (by decide +kernel)
  obtain ⟨place, e, hparse, he⟩ := hparse ts.length (Nat.le_refl _)
  obtain ⟨ts', htokens', room, hread⟩ := hall _ ts _ _ htokens hparse
  have htext : Program.text ⟨[.expr place e]⟩ = "(a = 1 + 2);\n" := by
    rw [Program.text_expr, he]
    decide +kernel
  rw [htext] at htokens'
  obtain ⟨ts'', htokens'', hts''⟩ := @exists_tokens "(a = 1 + 2);\n"
    (Spelling.inParens (Spelling.light.plain assignmentOfSum) ++ [.mark .semicolon]) (by decide +kernel)
  obtain rfl : ts' = ts'' := Except.ok.inj (htokens'.symm.trans htokens'')
  have hsuits : Spelling.light.Suits assignmentOfSum := Spelling.suits_sparse assignmentOfSum hnumbers
  have hplain : Parser.Reads (max room ts'.length) (Spelling.light.plain assignmentOfSum) assignmentOfSum
      assignmentOfSum.strength := Parser.reads_plain assignmentOfSum hsuits
  have hreads := hplain.inParens assignmentOfSum.strength_pos
  obtain ⟨place', e', hparse', he'⟩ := parse_of_reads hreads (by decide) nofun hts'' (le_max_right _ _)
  obtain ⟨p', hp', hbare⟩ := hread _ (le_max_left _ _)
  rw [hparse'] at hp'
  obtain rfl := Except.ok.inj hp'
  have hsame : assignmentOfSum.bare = sumOfAssignment.bare := by
    rw [← he, ← he']
    have := List.cons.inj (Program.mk.inj hbare)
    exact (Stmt.expr.inj this.1).2
  cases hsame

end Persona
