import Persona.Proofs.Syntax.Canonical
import Persona.Proofs.Token.Spelled

/-! What canonical texts spell.

The text of a sound expression or statement is read as its lexemes, form by form. -/
namespace Persona

open Lexer

/-! ### Punctuation -/

theorem spelled_comma : Spelled ", " [.mark .comma] := spelled_mark .comma

theorem spelled_colon : Spelled ": " [.mark .colon] := spelled_mark .colon

theorem spelled_equal : Spelled " = " [.mark .equal] := spelled_blank.append (spelled_mark .equal)

/-- The end of a statement. -/
theorem spelled_semicolon : Spelled ";\n" [.mark .semicolon] :=
  (spelled_punctuation (m := .semicolon) rfl).append spelled_lineFeed

/-- What stands between two marks. -/
theorem Lexer.Spells.between {m n : Mark} (hm : isPunctuation m = true) (hn : isPunctuation n = true)
    (hparts : Parts n.text) {s : String} {ls : List Lexeme} (h : Spells Parted s ls) :
    Spelled (m.text ++ (s ++ n.text)) (.mark m :: (ls ++ [.mark n])) :=
  (spelled_punctuation hm).append (h.parted (spelled_punctuation hn) hparts)

theorem Lexer.Spells.inParens {s : String} {ls : List Lexeme} (h : Spells Parted s ls) :
    Spelled ("(" ++ (s ++ ")")) (Spelling.inParens ls) :=
  h.between (m := .leftParen) (n := .rightParen) rfl rfl (.of_head rfl rfl)

/-! ### Rows -/

/-- Texts with commas between them. -/
theorem spells_commaSeparated {α : Type} {text : α → String} {lexemes : α → List Lexeme} {xs : List α}
    (hxs : ∀ x ∈ xs, Spells Parted (text x) (lexemes x)) :
    Spells Parted (commaSeparated (xs.map text)) (Parser.joined (xs.map lexemes)) := by
  induction xs with
  | nil => exact fun _ _ _ h => h
  | cons x xs ih =>
    obtain ⟨hx, hxs⟩ := List.forall_mem_cons.1 hxs
    cases xs with
    | nil => exact hx
    | cons y ys =>
      have hrow := hx.parted (spelled_comma.append (ih hxs)) (.append (.of_head rfl rfl) _)
      rw [← String.append_assoc] at hrow
      rw [commaSeparated, List.map_cons, List.map_cons, String.intercalate_cons_cons]
      exact hrow

/-! ### Expressions -/

/-- The text of an expression spells these lexemes and begins with one of them. -/
structure Prints (s : String) (ls : List Lexeme) : Prop where
  spells : Spells Parted s ls
  leads : Leads s

theorem BinaryOp.text_mark (op : BinaryOp) : op.mark.text = op.symbol := by cases op <;> rfl

theorem UnaryOp.text_mark (op : UnaryOp) : op.mark.text = op.symbol := by cases op <;> rfl

theorem leads_word {s : String} (hs : IsWord s) : Leads s := by
  obtain ⟨c, cs, htext, hc, -⟩ := hs
  have hmarks : c ≠ '=' ∧ c ≠ '>' ∧ c ≠ '*' ∧ c ≠ '/' := by
    refine ⟨?_, ?_, ?_, ?_⟩
    all_goals
      rintro rfl
      exact absurd hc (by decide)
  exact .of_head htext (of_isNameStart hc).1 hmarks

theorem prints_name {s : String} (hs : Lexer.IsName s) : Prints s [.name s] := ⟨spells_name hs, leads_word hs.1⟩

theorem prints_keyword (k : Keyword) (hk : k ≠ .returnKey) : Prints k.text [.keyword k] :=
  ⟨.of_takes (fun h => hk (Lexeme.keyword.inj h)) fun _ hrest => takes_keyword k hrest, leads_word (isWord_text k)⟩

theorem prints_number {s : String} (hs : Lexer.IsNumber s) : Prints s [.number s] := by
  refine ⟨spells_number hs, ?_⟩
  obtain ⟨whole, fraction, htext, ⟨hne, hwhole⟩, -⟩ := hs
  obtain ⟨c, cs, rfl⟩ := List.exists_cons_of_ne_nil hne
  have hc := hwhole c List.mem_cons_self
  have hmarks : c ≠ '=' ∧ c ≠ '>' ∧ c ≠ '*' ∧ c ≠ '/' := by
    refine ⟨?_, ?_, ?_, ?_⟩
    all_goals
      rintro rfl
      exact absurd hc (by decide)
  exact .of_head htext (of_isDigit hc).1 hmarks

theorem prints_string (s : String) : Prints (Text.quote s) [.string s] :=
  ⟨fun _ _ _ => spelled_string s trivial, .of_head (toList_quote s) rfl (by decide)⟩

theorem Prints.inParens {s : String} {ls : List Lexeme} (h : Spells Parted s ls) :
    Prints ("(" ++ (s ++ ")")) (Spelling.inParens ls) :=
  ⟨fun _ _ _ => h.inParens trivial, (Leads.of_head (s := "(") rfl rfl (by decide)).append _⟩

theorem prints_binary {l r : String} {ll lr : List Lexeme} (hl : Prints l ll) (hr : Prints r lr) (op : BinaryOp) :
    Prints s!"({l} {op.symbol} {r})" (Spelling.inParens (ll ++ .mark op.mark :: lr)) := by
  have hop : Spelled (op.symbol ++ " ") [.mark op.mark] := op.text_mark ▸ spelled_mark op.mark
  have hright := spelled_blank.append (hop.append hr.spells)
  have hall := Prints.inParens (hl.spells.parted hright (.append (.of_head rfl rfl) _))
  simp only [← String.append_assoc] at hall
  exact hall

theorem prints_unary {e : String} {ls : List Lexeme} (he : Prints e ls) (op : UnaryOp) :
    Prints s!"({op.symbol}{e})" (Spelling.inParens (.mark op.mark :: ls)) := by
  have hop : Spells Clear op.symbol [.mark op.mark] := op.text_mark ▸ spells_mark op.mark
  have hall := Prints.inParens (hop.append he.spells fun rest _ => he.leads.clear rest)
  simp only [← String.append_assoc] at hall
  exact hall

theorem prints_assign {name value : String} {ls : List Lexeme} (hname : Lexer.IsName name) (hvalue : Prints value ls) :
    Prints s!"{name} = {value}" (.name name :: .mark .equal :: ls) := by
  have hall := (spells_name hname).parted (spelled_equal.append hvalue.spells) (.append (.of_head rfl rfl) _)
  rw [← String.append_assoc] at hall
  exact ⟨hall, ((prints_name hname).leads.append _).append _⟩

/-- A call or an indexing: something between marks behind a text. -/
theorem prints_postfix {s row : String} {ls lr : List Lexeme} (hs : Prints s ls) {m n : Mark}
    (hm : isPunctuation m = true) (hn : isPunctuation n = true) (hparts : Parts m.text) (hparts' : Parts n.text)
    (hrow : Spells Parted row lr) :
    Prints (s ++ m.text ++ row ++ n.text) (ls ++ .mark m :: (lr ++ [.mark n])) := by
  have hall := hs.spells.parted (hrow.between hm hn hparts') (hparts.append _)
  simp only [← String.append_assoc] at hall
  exact ⟨fun _ _ _ => hall trivial, ((hs.leads.append _).append _).append _⟩

/-- A row between brackets. -/
theorem prints_row {row : String} {lr : List Lexeme} {m n : Mark} (hm : isPunctuation m = true)
    (hn : isPunctuation n = true) (hleads : Leads m.text) (hparts : Parts n.text) (hrow : Spells Parted row lr) :
    Prints (m.text ++ row ++ n.text) (.mark m :: (lr ++ [.mark n])) := by
  have hall := hrow.between hm hn hparts
  rw [← String.append_assoc] at hall
  exact ⟨fun _ _ _ => hall trivial, (hleads.append _).append _⟩

theorem spells_entry {key value : String} {ls : List Lexeme} (hvalue : Prints value ls) :
    Spells Parted s!"{Text.quote key}: {value}" (.string key :: .mark .colon :: ls) := by
  have hall := (spelled_string key).append (spelled_colon.append hvalue.spells)
  rw [← String.append_assoc] at hall
  exact hall

namespace Expr

theorem listTexts_eq (es : List Expr) : listTexts es = es.map text := by
  induction es with
  | nil => rfl
  | cons e es ih => rw [listTexts, ih, List.map_cons]

/-- The text of a key and its value. -/
def entryText (e : String × Expr) : String := s!"{Text.quote e.1}: {e.2.text}"

theorem entryTexts_eq (es : List (String × Expr)) : entryTexts es = es.map entryText := by
  induction es with
  | nil => rfl
  | cons e es ih =>
    rw [entryTexts, ih]
    rfl

mutual

/-- The text of a sound expression spells its lexemes. -/
theorem prints_text : ∀ (e : Expr), e.Sound → Prints e.text e.lexemes
  | literal (.number _), h => prints_number (Decimal.isNumber_number h.isFinite h.belowZero)
  | literal (.string s), _ => prints_string s
  | literal (.bool true), _ => prints_keyword .trueKey nofun
  | literal (.bool false), _ => prints_keyword .falseKey nofun
  | literal .null, _ => prints_keyword .nullKey nofun
  | identifier _, h => prints_name h
  | binary op l r, ⟨⟨_, hl⟩, _, hr⟩ => prints_binary (prints_text l hl) (prints_text r hr) op
  | unary op e, ⟨_, h⟩ => prints_unary (prints_text e h) op
  | assign _ value, ⟨hname, h⟩ => prints_assign hname (prints_text value h)
  | call _ callee arguments, ⟨⟨_, hcallee⟩, h⟩ => by
    have hrow := spells_commaSeparated fun e he => (prints_all arguments h e he).spells
    rw [lexemes_call, text, listTexts_eq]
    exact prints_postfix (m := .leftParen) (n := .rightParen) (prints_text callee hcallee) rfl rfl (.of_head rfl rfl)
      (.of_head rfl rfl) hrow
  | array elements, h => by
    have hrow := spells_commaSeparated fun e he => (prints_all elements h e he).spells
    rw [lexemes_array, text, listTexts_eq]
    exact prints_row (m := .leftBracket) (n := .rightBracket) rfl rfl (.of_head rfl rfl (by decide)) (.of_head rfl rfl) hrow
  | map entries, h => by
    have hrow : Lexer.Spells Lexer.Parted (commaSeparated (entries.map entryText)) (Parser.joined (entries.map entryLexemes)) :=
      spells_commaSeparated fun e he => spells_entry (prints_entries entries h e he)
    rw [lexemes_map, text, entryTexts_eq]
    exact prints_row (m := .leftBrace) (n := .rightBrace) rfl rfl (.of_head rfl rfl (by decide)) (.of_head rfl rfl) hrow
  | index object key, ⟨⟨_, ho⟩, hk⟩ =>
    prints_postfix (m := .leftBracket) (n := .rightBracket) (prints_text object ho) rfl rfl (.of_head rfl rfl)
      (.of_head rfl rfl) (prints_text key hk).spells
termination_by structural e => e

theorem prints_all : ∀ (es : List Expr), ListSound es → ∀ e ∈ es, Prints e.text e.lexemes
  | [], _ => fun _ he => absurd he List.not_mem_nil
  | e :: es, ⟨he, hes⟩ => List.forall_mem_cons.2 ⟨prints_text e he, prints_all es hes⟩
termination_by structural es => es

theorem prints_entries : ∀ (es : List (String × Expr)), EntriesSound es → ∀ e ∈ es, Prints e.2.text e.2.lexemes
  | [], _ => fun _ he => absurd he List.not_mem_nil
  | (_, e) :: es, ⟨he, hes⟩ => List.forall_mem_cons.2 ⟨prints_text e he, prints_entries es hes⟩
termination_by structural es => es

end

end Expr

/-! ### Parameters and traits -/

theorem isWord_type {type : String} (htype : IsType type) : IsWord type := by
  obtain rfl | rfl | htype := htype
  · exact isWord_text .nullKey
  · exact isWord_text .fnKey
  · exact htype.1

theorem spells_type {type : String} (htype : IsType type) : Spells Parted type [.ofWord type] := by
  refine spells_word (isWord_type htype) ?_ rfl
  obtain rfl | rfl | htype := htype
  · exact nofun
  · exact nofun
  · rw [Lexeme.ofWord, htype.2]
    exact nofun

theorem Param.spells_text {p : Param} (hp : p.Sound) : Spells Parted p.text p.lexemes := by
  obtain ⟨name, type⟩ := p
  cases type with
  | none => exact spells_name hp.1
  | some type =>
    have hall := (spells_name hp.1).parted (spelled_colon.append (spells_type (hp.2 type rfl))) (.append (.of_head rfl rfl) _)
    rw [← String.append_assoc] at hall
    exact hall

theorem spells_numberLexemes {x : Float} (hx : Decimal.isFinite x = true) :
    Spells Parted (Decimal.number x) (numberLexemes x) := by
  unfold numberLexemes
  split
  · next hneg =>
    have hplain := Decimal.plain_neg hx hneg
    have hnumber := prints_number (Decimal.isNumber_number hplain.isFinite hplain.belowZero)
    rw [Decimal.number_of_belowZero hx hneg]
    exact (spells_mark .minus).append hnumber.spells fun rest _ => hnumber.leads.clear rest
  · next hneg => exact (prints_number (Decimal.isNumber_number hx (Bool.eq_false_iff.2 hneg))).spells

theorem isName_trait (t : Trait) : Lexer.IsName t.name := by
  refine ⟨?_, ?_⟩
  · cases t <;> exact ⟨_, _, rfl, rfl, List.all_eq_true.1 rfl⟩
  · cases t <;> rfl

theorem TraitEntry.spells_text {e : TraitEntry} (he : e.Sound) : Spells Parted e.text e.lexemes := by
  have hall := (spells_name (isName_trait e.key)).parted (spelled_colon.append (spells_numberLexemes he))
    (.append (.of_head rfl rfl) _)
  rw [← String.append_assoc] at hall
  exact hall

/-! ### Statements -/

/-- The text of an expression and the end of the statement. -/
theorem spelled_ended {s : String} {ls : List Lexeme} (h : Prints s ls) : Spelled (s ++ ";\n") (ls ++ [.mark .semicolon]) :=
  h.spells.parted spelled_semicolon (.of_head rfl rfl)

/-- What is given back begins on the line of the `return`. -/
theorem spells_return {s : String} {ls : List Lexeme} (h : Prints s ls) :
    Spells Parted ("return " ++ s) (.keyword .returnKey :: ls) := by
  intro rest more hrest hmore
  obtain ⟨c, cs, hs, hblank, -⟩ := h.leads
  have htext : ("return " ++ s).toList ++ rest = Keyword.returnKey.text.toList ++ (' ' :: (s.toList ++ rest)) := by
    rw [String.toList_append]
    rfl
  have hline : '\n' ∉ Keyword.returnKey.text.toList ++ (' ' :: (s.toList ++ rest)).takeWhile Text.isBlank := by
    rw [hs, List.takeWhile_cons_of_pos rfl, List.cons_append, List.takeWhile_cons_of_neg (by rw [hblank]; exact Bool.false_ne_true)]
    decide
  rw [htext]
  exact @Lexer.Scans.more [] _ _ _ _ nofun (takes_keyword .returnKey (parted_blank _)) (fun _ => hline) ((h.spells hrest hmore).blank rfl)

theorem spelled_returnNothing : Spelled "return;\n" [.keyword .returnKey, .mark .semicolon] := by
  intro rest more _ hmore
  have hparted : Parted (';' :: '\n' :: rest) := by
    rintro c ⟨⟩
    rfl
  have hline : '\n' ∉ Keyword.returnKey.text.toList ++ (';' :: '\n' :: rest).takeWhile Text.isBlank := by
    rw [List.takeWhile_cons_of_neg (by decide)]
    decide
  have hsemicolon := spelled_semicolon trivial hmore
  exact @Lexer.Scans.more [] _ _ _ _ nofun (takes_keyword .returnKey hparted) (fun _ => hline) hsemicolon

namespace Stmt

theorem spelled_indent (depth : Nat) : Spelled (indent depth) [] := by
  refine .blanks rfl fun b hb => ?_
  rw [indent, String.toList_join] at hb
  obtain ⟨s, hs, hb⟩ := List.mem_flatMap.1 hb
  have hblanks : "    ".toList = List.replicate 4 ' ' := rfl
  rw [List.eq_of_mem_replicate hs, hblanks] at hb
  rw [List.eq_of_mem_replicate hb]
  rfl

/-- The text of a block between its braces. -/
theorem spelled_braced {texts : List String} {ls : List Lexeme} (h : Spelled (String.join texts) ls) (depth : Nat) :
    Spelled (braced depth texts) (inBraces ls) := by
  have hopen : Spelled "\x7b\n" [.mark .leftBrace] := (spelled_punctuation (m := .leftBrace) rfl).append spelled_lineFeed
  have hclose : Spelled "\x7d" [.mark .rightBrace] := spelled_punctuation (m := .rightBrace) rfl
  have hall := hopen.append (h.append ((spelled_indent depth).append hclose))
  simp only [← String.append_assoc] at hall
  exact hall

/-- The text of a statement that is only a keyword. -/
theorem spelled_last {k : Keyword} (hk : k ≠ .returnKey) : Spelled (k.text ++ ";\n") [.keyword k, .mark .semicolon] :=
  spelled_ended (prints_keyword k hk)

/-- The text of a keyword and an expression before a block. -/
theorem spelled_head {k : Keyword} (hk : k ≠ .returnKey) {head : String} (hhead : head = k.text ++ " ") {s : String}
    {ls : List Lexeme} (h : Prints s ls) : Spelled (head ++ s ++ " ") (.keyword k :: ls) := by
  have hall := (spelled_keyword k hk).append (h.spells.parted spelled_blank (.of_head rfl rfl))
  rw [← hhead, ← String.append_assoc, List.append_nil] at hall
  exact hall

theorem spelled_bind {name value : String} {ls : List Lexeme} (hname : Lexer.IsName name) (hvalue : Prints value ls) :
    Spelled (("let " ++ name) ++ " = " ++ value ++ ";\n") (.keyword .letKey :: .name name :: .mark .equal :: (ls ++ [.mark .semicolon])) := by
  have hlet : Spelled "let " [.keyword .letKey] := spelled_keyword .letKey nofun
  have hall := hlet.append ((spells_name hname).parted (spelled_equal.append (spelled_ended hvalue)) (.append (.of_head rfl rfl) _))
  simp only [← String.append_assoc] at hall
  exact hall

theorem spelled_result {type : String} (htype : IsType type) :
    Spelled s!"-> {type} " (resultLexemes (some type)) := by
  have harrow : Spelled "-> " [.mark .arrow] := spelled_mark .arrow
  have hall := harrow.append ((spells_type htype).parted spelled_blank (.of_head rfl rfl))
  rw [← String.append_assoc] at hall
  exact hall

/-- The text of a function up to its body, given that of its result. -/
theorem spelled_signature {name result : String} {params : List Param} {returnType : Option String}
    (hname : Lexer.IsName name) (hparams : ∀ p ∈ params, p.Sound) (hresult : Spelled result (resultLexemes returnType))
    (depth : Nat) :
    Spelled s!"{indent depth}fn {name}({commaSeparated (params.map Param.text)}) {result}"
      (.keyword .fnKey :: .name name :: .mark .leftParen ::
        (Parser.joined (params.map Param.lexemes) ++ [.mark .rightParen] ++ resultLexemes returnType)) := by
  have hfn : Spelled "fn " [.keyword .fnKey] := spelled_keyword .fnKey nofun
  have hopen : Spelled "(" [.mark .leftParen] := spelled_punctuation (m := .leftParen) rfl
  have hclose : Spelled ") " [.mark .rightParen] := (spelled_punctuation (m := .rightParen) rfl).append spelled_blank
  have hrow := spells_commaSeparated fun p hp => Param.spells_text (hparams p hp)
  have hrest := hrow.parted (hclose.append hresult) (.append (.of_head rfl rfl) _)
  have hhead := hfn.append ((spells_name hname).parted (hopen.append hrest) (.append (.of_head rfl rfl) _))
  have hall := (spelled_indent depth).append hhead
  simp only [← String.append_assoc] at hall
  rw [List.append_assoc]
  exact hall

theorem spelled_function {d : FunctionDecl} (hname : Lexer.IsName d.name) (hparams : ∀ p ∈ d.params, p.Sound)
    (htype : ∀ type ∈ d.returnType, IsType type) (depth : Nat)
    (hbody : Spelled (braced depth (listTexts (depth + 1) d.body)) (inBraces (listLexemes d.body))) :
    Spelled (text depth (.function d)) (lexemes (.function d)) := by
  obtain ⟨place, name, params, returnType, body⟩ := d
  have hall : ∀ result, Spelled result (resultLexemes returnType) →
      Spelled (s!"{indent depth}fn {name}({commaSeparated (params.map Param.text)}) {result}" ++
        braced depth (listTexts (depth + 1) body) ++ "\n") (lexemes (.function ⟨place, name, params, returnType, body⟩)) := by
    intro result hresult
    have hrest := hbody.append spelled_lineFeed
    rw [List.append_nil] at hrest
    rw [String.append_assoc, lexemes, ← List.append_assoc]
    exact (spelled_signature hname hparams hresult depth).append hrest
  cases returnType with
  | none => exact hall "" fun _ _ _ h => h
  | some type => exact hall _ (spelled_result (htype type rfl))

theorem spelled_personality {entries : List TraitEntry} (hentries : ∀ e ∈ entries, e.Sound) :
    Spelled ("personality \x7b " ++ commaSeparated (entries.map TraitEntry.text) ++ " \x7d\n")
      (.keyword .personalityKey :: inBraces (Parser.joined (entries.map TraitEntry.lexemes))) := by
  have hopen : Spelled "personality \x7b " [.keyword .personalityKey, .mark .leftBrace] :=
    (spelled_keyword .personalityKey nofun).append
      ((spelled_punctuation (m := .leftBrace) rfl).append spelled_blank)
  have hclose : Spelled " \x7d\n" [.mark .rightBrace] :=
    spelled_blank.append ((spelled_punctuation (m := .rightBrace) rfl).append spelled_lineFeed)
  have hrow := spells_commaSeparated fun e he => TraitEntry.spells_text (hentries e he)
  have hall := hopen.append (hrow.parted hclose (.of_head rfl rfl))
  rw [← String.append_assoc] at hall
  exact hall

mutual

/-- The text of a sound statement spells its lexemes. -/
theorem spelled_text : ∀ (s : Stmt) {around : Parser.Surroundings}, s.Sound around → ∀ depth, Spelled (text depth s) s.lexemes
  | expr _ e, _, h, depth => by
    have hall := (spelled_indent depth).append (spelled_ended (e.prints_text h.2))
    rw [← String.append_assoc] at hall
    exact hall
  | bind _ _ value, _, h, depth => by
    have hall := (spelled_indent depth).append (spelled_bind h.1 (value.prints_text h.2))
    simp only [← String.append_assoc] at hall
    exact hall
  | function ⟨_, _, _, _, body⟩, _, ⟨hname, hparams, htype, h⟩, depth =>
    spelled_function hname hparams htype depth (spelled_braced (spelled_listTexts body h (depth + 1)) depth)
  | cond _ test yes no, _, ⟨ht, hy, hn⟩, depth => by
    have hyes := spelled_braced (spelled_listTexts yes hy (depth + 1)) depth
    have hno := spelled_elseText no hn depth
    have htest := @spelled_head .ifKey nofun "if " rfl _ _ (test.prints_text ht)
    have hall := (spelled_indent depth).append (htest.append (hyes.append (hno.append spelled_lineFeed)))
    simp only [← String.append_assoc] at hall
    simp only [List.nil_append, List.append_nil, List.cons_append] at hall
    exact hall
  | whileLoop _ test body, _, ⟨ht, hb⟩, depth => by
    have hbody := spelled_braced (spelled_listTexts body hb (depth + 1)) depth
    have htest := @spelled_head .whileKey nofun "while " rfl _ _ (test.prints_text ht)
    have hall := (spelled_indent depth).append (htest.append (hbody.append spelled_lineFeed))
    simp only [← String.append_assoc] at hall
    simp only [List.nil_append, List.append_nil, List.cons_append] at hall
    exact hall
  | forEach _ name iterable body, _, ⟨hname, hi, hb⟩, depth => by
    have hbody := spelled_braced (spelled_listTexts body hb (depth + 1)) depth
    have hfor : Spelled "for " [.keyword .forKey] := spelled_keyword .forKey nofun
    have hin : Spelled " in " [.keyword .inKey] := spelled_blank.append (spelled_keyword .inKey nofun)
    have hrest := hin.append ((iterable.prints_text hi).spells.parted spelled_blank (.of_head rfl rfl))
    have hhead : Spelled _ _ := hfor.append ((spells_name hname).parted hrest (.append (.of_head rfl rfl) _))
    have hall := (spelled_indent depth).append (hhead.append (hbody.append spelled_lineFeed))
    simp only [← String.append_assoc] at hall
    simp only [List.nil_append, List.append_nil, List.cons_append] at hall
    exact hall
  | block _ body, _, h, depth => by
    have hbody := spelled_braced (spelled_listTexts body h (depth + 1)) depth
    have hall := (spelled_indent depth).append (hbody.append spelled_lineFeed)
    rw [← String.append_assoc, List.append_nil] at hall
    exact hall
  | personality _ entries, _, ⟨_, h⟩, depth => by
    have hall := (spelled_indent depth).append (spelled_personality h)
    simp only [← String.append_assoc] at hall
    exact hall
  | giveBack _ (some e), _, h, depth => by
    have hall := (spelled_indent depth).append ((spells_return (e.prints_text h)).parted spelled_semicolon (.of_head rfl rfl))
    simp only [← String.append_assoc] at hall
    exact hall
  | giveBack _ none, _, _, depth => (spelled_indent depth).append spelled_returnNothing
  | leave _, _, _, depth => (spelled_indent depth).append (spelled_last (k := .breakKey) nofun)
  | again _, _, _, depth => (spelled_indent depth).append (spelled_last (k := .continueKey) nofun)
termination_by structural s => s

theorem spelled_listTexts : ∀ (ss : List Stmt) {around : Parser.Surroundings}, ListSound around ss →
    ∀ depth, Spelled (String.join (listTexts depth ss)) (listLexemes ss)
  | [], _, _, _ => fun _ _ _ h => h
  | s :: ss, _, ⟨hs, hss⟩, depth => by
    rw [listTexts, String.join_cons, listLexemes]
    exact (spelled_text s hs depth).append (spelled_listTexts ss hss depth)
termination_by structural ss => ss

theorem spelled_elseText : ∀ (no : Option Stmt) {around : Parser.Surroundings}, ElseSound around no →
    ∀ depth, Spelled (elseText depth no) (elseLexemes no)
  | none, _, _, _ => fun _ _ _ h => h
  | some (cond _ test yes no), _, ⟨ht, hy, hn⟩, depth => by
    have hyes := spelled_braced (spelled_listTexts yes hy (depth + 1)) depth
    have hno := spelled_elseText no hn depth
    have helse : Spelled " else " [.keyword .elseKey] := spelled_blank.append (spelled_keyword .elseKey nofun)
    have htest := @spelled_head .ifKey nofun "if " rfl _ _ (test.prints_text ht)
    have hall := helse.append (htest.append (hyes.append hno))
    simp only [← String.append_assoc] at hall
    exact hall
  | some (block _ body), _, h, depth => by
    have hbody := spelled_braced (spelled_listTexts body h (depth + 1)) depth
    have helse : Spelled " else " [.keyword .elseKey] := spelled_blank.append (spelled_keyword .elseKey nofun)
    exact helse.append hbody
termination_by structural no => no

end

end Stmt

/-- The text of a sound program is a sequence of tokens that say its lexemes. -/
theorem tokenize_of_sound {p : Program} (hp : Stmt.ListSound ⟨false, false⟩ p.statements) :
    ∃ ts, tokenize p.text = .ok ts ∧ ts.map (·.lexeme) = Stmt.listLexemes p.statements ∧ Aligned ts :=
  tokenize_of_scans (.of_spelled (Stmt.spelled_listTexts p.statements hp 0))

end Persona
