import Persona.Proofs.Syntax.Reading

/-! How statements in a row are read.

Each of them ends where the next one begins or where the row ends, with the closing brace of a
block or with the tokens. -/
namespace Persona.Parser

/-- What follows is not taken for a part of the statement. -/
def Ends (more : List Lexeme) : Prop :=
  more.head? ≠ some (.mark .semicolon) ∧ more.head? ≠ some (.keyword .elseKey)

/-- What begins with this lexeme is a statement. -/
def Begins (l : Lexeme) : Prop := l ≠ .mark .semicolon ∧ l ≠ .keyword .elseKey ∧ l ≠ .mark .rightBrace

/-- A statement of a row, wherever it stands in it. -/
structure IsStatement (L : Layout) (item : Parser Stmt) (ls : List Lexeme) (Q : Stmt → Prop) : Prop where
  begins : ∃ l rest, ls = l :: rest ∧ Begins l
  passes : ∀ {more}, Ends more → Passes L item ls more (Gives Q)

/-- A row ends before a closing brace, if it is one of a block, and at the end. -/
def RowEnds (closing : Bool) (more : List Lexeme) : Prop :=
  more = [] ∨ closing = true ∧ ∃ rest, more = .mark .rightBrace :: rest

variable {L : Layout} {item : Parser Stmt} {closing : Bool} {more : List Lexeme} {bound : List Token}
  {before : List Stmt}

theorem RowEnds.ends (h : RowEnds closing more) : Ends more := by
  obtain rfl | ⟨-, rest, rfl⟩ := h
  · exact ⟨nofun, nofun⟩
  · exact ⟨nofun, nofun⟩

theorem passes_statements_end (hmore : RowEnds closing more) :
    Passes L (statements item closing bound before) [] more (Gives (· = before.reverse)) := by
  cases bound with
  | nil => exact .done rfl
  | cons t bound =>
    refine passes_peekLexeme ?_
    obtain rfl | ⟨rfl, rest, rfl⟩ := hmore
    · exact .done rfl
    · exact .done rfl

theorem passes_statements {β : Type} {spell : β → List Lexeme} {Q : β → Stmt → Prop} {xs : List β}
    (hitems : ∀ x ∈ xs, IsStatement L item (spell x) (Q x)) (hmore : RowEnds closing more)
    (hbound : xs.length ≤ bound.length) :
    Passes L (statements item closing bound before) (xs.flatMap spell) more
      (Gives fun ss => ∃ new, ss = before.reverse ++ new ∧ List.Forall₂ Q xs new) := by
  induction xs generalizing bound before with
  | nil =>
    refine (passes_statements_end hmore).imp ?_
    rintro _ ⟨_, rfl, rfl⟩
    exact ⟨_, ⟨[], (List.append_nil _).symm, .nil⟩, rfl⟩
  | cons x xs ih =>
    obtain ⟨hx, hxs⟩ := List.forall_mem_cons.1 hitems
    obtain ⟨t, bound, rfl⟩ := List.exists_cons_of_length_pos (Nat.lt_of_lt_of_le (Nat.zero_lt_succ _) hbound)
    obtain ⟨l, rest, hspell, hsemicolon, -, hbrace⟩ := hx.begins
    have hends : Ends (xs.flatMap spell ++ more) := by
      cases xs with
      | nil => exact hmore.ends
      | cons y ys =>
        obtain ⟨l, rest, hy, hsemicolon, helse, -⟩ := (hxs y List.mem_cons_self).begins
        rw [List.flatMap_cons, hy]
        exact ⟨fun h => hsemicolon (Option.some.inj h), fun h => helse (Option.some.inj h)⟩
    have hround : Passes L (do statements item closing bound ((← item) :: before)) ((x :: xs).flatMap spell) more
        (Gives fun ss => ∃ new, ss = before.reverse ++ new ∧ List.Forall₂ Q (x :: xs) new) := by
      rw [List.flatMap_cons]
      refine (hx.passes hends).andThen fun s hs => (ih hxs (Nat.le_of_succ_le_succ hbound)).imp ?_
      rintro _ ⟨_, ⟨new, rfl, hnew⟩, rfl⟩
      refine ⟨_, ⟨s :: new, ?_, .cons hs hnew⟩, rfl⟩
      rw [List.reverse_cons, List.append_assoc]
      rfl
    rw [List.flatMap_cons, hspell] at hround ⊢
    refine passes_peekLexeme ?_
    split
    · next h => cases h
    · next h => exact absurd (Option.some.inj h) hsemicolon
    · next h =>
      obtain rfl := Option.some.inj h
      rw [if_neg]
      · exact hround
      · simp [hbrace]

end Persona.Parser
