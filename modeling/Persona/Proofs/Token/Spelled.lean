import Persona.Proofs.Token.Munch

/-! What a text spells.

A text spells lexemes where, with a rest behind it, it is read as them and then the rest as what
it is. Words and numbers need a rest that does not go on with them; texts that end with a blank,
a bracket or a quote need nothing. Texts are put together with what they spell. -/
namespace Persona.Lexer

/-- With such a rest behind it, the text is read as these lexemes. -/
def Spells (B : List Char → Prop) (s : String) (ls : List Lexeme) : Prop :=
  ∀ ⦃rest : List Char⦄ ⦃more : List Lexeme⦄, B rest → Scans rest more → Scans (s.toList ++ rest) (ls ++ more)

/-- Whatever follows, the text is read as these lexemes. -/
def Spelled (s : String) (ls : List Lexeme) : Prop := Spells (fun _ => True) s ls

/-- The text begins where a word or a number before it ends. -/
def Parts (s : String) : Prop := ∀ rest, Parted (s.toList ++ rest)

/-- The text begins with a lexeme, and where a mark before it ends. -/
def Leads (s : String) : Prop := ∃ c cs, s.toList = c :: cs ∧ Text.isBlank c = false ∧ ∀ rest, Clear (c :: rest)

variable {B : List Char → Prop} {s s' : String} {ls ls' : List Lexeme}

theorem Scans.blank {b : Char} {cs : List Char} (hb : Text.isBlank b = true) (h : Scans cs ls) : Scans (b :: cs) ls := by
  cases h with
  | done hbs => exact .done (List.forall_mem_cons.2 ⟨hb, hbs⟩)
  | more hbs hw hline h => exact .more (List.forall_mem_cons.2 ⟨hb, hbs⟩) hw hline h

theorem Scans.of_spelled (h : Spelled s ls) : Scans s.toList ls := by
  have hend := h trivial (@Scans.done [] nofun)
  rwa [List.append_nil, List.append_nil] at hend

/-! ### Putting together -/

theorem Spells.append {B' : List Char → Prop} (h : Spells B s ls) (h' : Spells B' s' ls')
    (hB : ∀ rest, B' rest → B (s'.toList ++ rest)) : Spells B' (s ++ s') (ls ++ ls') := by
  intro rest more hrest hmore
  rw [String.toList_append, List.append_assoc, List.append_assoc]
  exact h (hB rest hrest) (h' hrest hmore)

theorem Spelled.append (h : Spelled s ls) (h' : Spells B s' ls') : Spells B (s ++ s') (ls ++ ls') :=
  Spells.append h h' fun _ _ => trivial

theorem Spells.parted (h : Spells Parted s ls) (h' : Spells B s' ls') (hs : Parts s') : Spells B (s ++ s') (ls ++ ls') :=
  h.append h' fun rest _ => hs rest

theorem Leads.append (h : Leads s) (s' : String) : Leads (s ++ s') := by
  obtain ⟨c, cs, hs, hblank, hclear⟩ := h
  exact ⟨c, cs ++ s'.toList, by rw [String.toList_append, hs]; rfl, hblank, hclear⟩

theorem Leads.clear (h : Leads s) (rest : List Char) : Clear (s.toList ++ rest) := by
  obtain ⟨c, cs, hs, -, hclear⟩ := h
  rw [hs]
  exact hclear (cs ++ rest)

theorem Leads.of_head {c : Char} {cs : List Char} (hs : s.toList = c :: cs) (hblank : Text.isBlank c = false)
    (hc : c ≠ '=' ∧ c ≠ '>' ∧ c ≠ '*' ∧ c ≠ '/') : Leads s := by
  refine ⟨c, cs, hs, hblank, ?_⟩
  rintro rest d ⟨⟩
  exact hc

theorem Parts.of_head {c : Char} {cs : List Char} (hs : s.toList = c :: cs) (hc : isGlued c = false) : Parts s := by
  rw [Parts, hs]
  rintro rest d ⟨⟩
  exact hc

theorem Parts.append (h : Parts s) (s' : String) : Parts (s ++ s') := by
  intro rest
  rw [String.toList_append, List.append_assoc]
  exact h _

/-! ### Lexemes -/

/-- A lexeme that is taken where such a rest follows. -/
theorem Spells.of_takes {l : Lexeme} (hl : l ≠ .keyword .returnKey) (hs : ∀ rest, B rest → Takes s.toList rest l) :
    Spells B s [l] := fun rest _ hrest hmore => @Scans.more [] _ _ _ _ nofun (hs rest hrest) (fun h => absurd h hl) hmore

theorem Spelled.blanks {bs : List Char} (hs : s.toList = bs) (hbs : ∀ b ∈ bs, Text.isBlank b = true) :
    Spelled s [] := by
  intro rest more _ hmore
  rw [hs]
  clear hs
  induction bs with
  | nil => exact hmore
  | cons b bs ih =>
    obtain ⟨hb, hbs⟩ := List.forall_mem_cons.1 hbs
    exact (ih hbs).blank hb

theorem spelled_blank : Spelled " " [] := @Spelled.blanks _ [' '] rfl (List.forall_mem_singleton.2 rfl)

theorem spelled_lineFeed : Spelled "\n" [] := @Spelled.blanks _ ['\n'] rfl (List.forall_mem_singleton.2 rfl)

theorem spells_word {s : String} (hs : IsWord s) {l : Lexeme} (hl : l ≠ .keyword .returnKey)
    (hword : (match Keyword.ofText? s with | some k => Lexeme.keyword k | none => .name s) = l) : Spells Parted s [l] :=
  .of_takes hl fun _ hrest => takes_word hs hrest hword

theorem spells_name (hs : IsName s) : Spells Parted s [.name s] := .of_takes nofun fun _ hrest => takes_name hs hrest

theorem spells_number (hs : IsNumber s) : Spells Parted s [.number s] := .of_takes nofun fun _ hrest => takes_number hs hrest

theorem spelled_string (s : String) : Spelled (Text.quote s) [.string s] := .of_takes nofun fun rest _ => takes_string s rest

theorem spells_mark (m : Mark) : Spells Clear m.text [.mark m] := .of_takes nofun fun _ hrest => takes_mark m hrest

theorem parted_blank (rest : List Char) : Parted (' ' :: rest) := by
  rintro c ⟨⟩
  rfl

theorem clear_blank (rest : List Char) : Clear (' ' :: rest) := by
  rintro c ⟨⟩
  decide

/-- A keyword and a blank. -/
theorem spelled_keyword (k : Keyword) (hk : k ≠ .returnKey) : Spelled (k.text ++ " ") [.keyword k] := by
  refine Spells.append (.of_takes (fun h => hk (Lexeme.keyword.inj h)) fun rest hrest => takes_keyword k hrest)
    spelled_blank ?_
  exact fun rest _ => parted_blank rest

/-- A mark and a blank. -/
theorem spelled_mark (m : Mark) : Spelled (m.text ++ " ") [.mark m] :=
  (spells_mark m).append spelled_blank fun rest _ => clear_blank rest

theorem spelled_punctuation {m : Mark} (hm : isPunctuation m = true) : Spelled m.text [.mark m] :=
  .of_takes nofun fun rest _ => takes_punctuation hm rest

end Persona.Lexer
