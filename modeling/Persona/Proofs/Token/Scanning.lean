import Persona.Token.Lexer

/-! Texts and the lexemes that are read from them.

A text is written lexeme by lexeme, with blanks between some of them. It is read as those
lexemes again if each of them is what the lexer takes at its place, which depends on the
character behind it. Where a line feed stands matters behind `return` only. -/
namespace Persona

namespace Lexer

/-- The lexer takes `w` as this lexeme if `rest` follows. -/
structure Takes (w rest : List Char) (l : Lexeme) : Prop where
  noGap : ∀ n, gap .blank n (w ++ rest) = (n, none)
  munch : ∃ c cs, w = c :: cs ∧ Lexer.munch c (cs ++ rest) = ⟨.ok l, w.length⟩

/-- The text is read as these lexemes. What a `return` gives back begins on its line. -/
inductive Scans : List Char → List Lexeme → Prop
  | done {bs : List Char} : (∀ b ∈ bs, Text.isBlank b = true) → Scans bs []
  | more {bs w rest : List Char} {l : Lexeme} {ls : List Lexeme} : (∀ b ∈ bs, Text.isBlank b = true) →
    Takes w rest l → (l = .keyword .returnKey → '\n' ∉ w ++ rest.takeWhile Text.isBlank) → Scans rest ls →
      Scans (bs ++ (w ++ rest)) (l :: ls)

/-! ### Gaps -/

/-- Nothing is passed over in front of what is neither blank nor a comment. -/
theorem gap_stop {c : Char} {cs : List Char} (hblank : Text.isBlank c = false)
    (hslash : c = '/' → cs.head? ≠ some '/' ∧ cs.head? ≠ some '*') (n : Nat) :
    gap .blank n (c :: cs) = (n, none) := by
  rw [gap, if_neg (by rw [hblank]; exact Bool.false_ne_true)]
  · rintro cs' rfl rfl
    exact (hslash rfl).1 rfl
  · rintro cs' rfl rfl
    exact (hslash rfl).2 rfl

theorem gap_blank {c : Char} (hblank : Text.isBlank c = true) (n : Nat) (cs : List Char) :
    gap .blank n (c :: cs) = gap .blank (n + 1) cs := by
  have hslash : c ≠ '/' := by
    rintro rfl
    exact absurd hblank (by decide)
  rw [gap, if_pos hblank]
  · exact fun cs' h => absurd h hslash
  · exact fun cs' h => absurd h hslash

theorem gap_blanks {bs cs : List Char} (hbs : ∀ b ∈ bs, Text.isBlank b = true) (n : Nat) :
    gap .blank n (bs ++ cs) = gap .blank (n + bs.length) cs := by
  induction bs generalizing n with
  | nil => rfl
  | cons b bs ih =>
    obtain ⟨hb, hbs⟩ := List.forall_mem_cons.1 hbs
    rw [List.cons_append, gap_blank hb, ih hbs, List.length_cons, Nat.add_assoc, Nat.add_comm 1]

end Lexer

open Lexer

/-! ### Tokens -/

/-- What a `return` gives back begins on its line. -/
def Aligned : List Token → Prop
  | [] => True
  | t :: ts => (t.lexeme = .keyword .returnKey → ∀ u ∈ ts.head?, u.start.line = t.start.line) ∧ Aligned ts

theorem Aligned.suffix {ts ts' : List Token} (hsuffix : ts' <:+ ts) (h : Aligned ts) : Aligned ts' := by
  induction ts with
  | nil =>
    rw [List.suffix_nil.1 hsuffix]
    exact h
  | cons t ts ih =>
    rcases List.suffix_cons_iff.1 hsuffix with rfl | hsuffix
    · exact h
    · exact ih hsuffix h.2

/-- Characters on one line move the place on in it. -/
theorem Position.advanceAll_of_line {cs : List Char} (hcs : '\n' ∉ cs) (p : Position) :
    p.advanceAll cs = ⟨p.line, p.column + cs.length, p.offset + (String.ofList cs).utf8ByteSize⟩ := by
  induction cs generalizing p with
  | nil => simp
  | cons c cs ih =>
    obtain ⟨hc, hcs⟩ := not_or.1 (mt List.mem_cons.2 hcs)
    rw [advanceAll_cons, ih hcs, advance, if_neg (Ne.symm hc)]
    simp [String.ofList_cons]
    omega

theorem Position.line_advanceAll {cs : List Char} (hcs : '\n' ∉ cs) (p : Position) :
    (p.advanceAll cs).line = p.line := by rw [advanceAll_of_line hcs]

namespace Cursor

variable {bs w rest : List Char} {l : Lexeme}

theorem skip_append (p : Position) (cs rest : List Char) :
    (⟨p, cs ++ rest⟩ : Cursor).skip cs.length = ⟨p.advanceAll cs, rest⟩ := by
  rw [skip, List.take_left, List.drop_left]

/-- One token is read, and the rest is left. -/
theorem next_of_takes (hbs : ∀ b ∈ bs, Text.isBlank b = true) (hw : Takes w rest l) (p : Position) :
    (⟨p, bs ++ (w ++ rest)⟩ : Cursor).next =
      (.token ⟨l, p.advanceAll bs, (p.advanceAll bs).advanceAll w⟩, ⟨(p.advanceAll bs).advanceAll w, rest⟩) := by
  obtain ⟨hgap, c, cs, rfl, hmunch⟩ := hw
  have hgap' : gap .blank 0 (bs ++ (c :: cs ++ rest)) = (bs.length, none) := by
    rw [gap_blanks hbs, hgap, Nat.zero_add]
  have htoken : (⟨p.advanceAll bs, c :: (cs ++ rest)⟩ : Cursor).token =
      (.token ⟨l, p.advanceAll bs, (p.advanceAll bs).advanceAll (c :: cs)⟩,
        ⟨(p.advanceAll bs).advanceAll (c :: cs), rest⟩) := by
    rw [token]
    simp only [hmunch]
    rw [← List.cons_append, skip_append]
  rw [next]
  simp only [hgap']
  rw [skip_append, List.cons_append, htoken]

theorem next_of_blanks (hbs : ∀ b ∈ bs, Text.isBlank b = true) (p : Position) :
    (⟨p, bs⟩ : Cursor).next = (.atEnd, ⟨p.advanceAll bs, []⟩) := by
  have hgap : gap .blank 0 bs = (bs.length, none) := by
    have hall : gap .blank 0 (bs ++ []) = gap .blank (0 + bs.length) [] := gap_blanks hbs 0
    rwa [List.append_nil, Nat.zero_add, gap] at hall
  have hskip := skip_append p bs []
  rw [List.append_nil] at hskip
  rw [next]
  simp only [hgap]
  rw [hskip]
  rfl

/-! ### What is read -/

section

variable {cur after : Cursor} {t : Token}

/-- A token is read where a gap ends in front of a lexeme. -/
theorem next_of_munch {n : Nat} {c : Char} {cs : List Char} {l : Lexeme} (hgap : gap .blank 0 cur.rest = (n, none))
    (hrest : (cur.skip n).rest = c :: cs) (hmunch : (munch c cs).result = .ok l) :
    cur.next = (.token ⟨l, (cur.skip n).position, ((cur.skip n).skip (munch c cs).taken).position⟩,
      (cur.skip n).skip (munch c cs).taken) := by
  unfold next
  simp only [hgap]
  unfold token
  simp only [hrest, hmunch]

theorem exists_munch (h : cur.next = (.token t, after)) : ∃ n c cs l, gap .blank 0 cur.rest = (n, none) ∧
    (cur.skip n).rest = c :: cs ∧ (munch c cs).result = .ok l ∧
    t = ⟨l, (cur.skip n).position, ((cur.skip n).skip (munch c cs).taken).position⟩ ∧
    after = (cur.skip n).skip (munch c cs).taken := by
  unfold next at h
  split at h
  · cases h
  next n hgap =>
  unfold token at h
  split at h
  · cases h
  next c cs hrest =>
  dsimp only at h
  split at h
  · next l hmunch =>
    cases h
    exact ⟨n, c, cs, l, hgap, hrest, hmunch, rfl, rfl⟩
  · cases h

/-- At the end of a source no more than a gap is left. -/
theorem exists_gap_of_atEnd (h : cur.next = (.atEnd, after)) :
    ∃ n, gap .blank 0 cur.rest = (n, none) ∧ (cur.skip n).rest = [] := by
  unfold next at h
  split at h
  · cases h
  next n hgap =>
  unfold token at h
  split at h
  · next hrest => exact ⟨n, hgap, hrest⟩
  · dsimp only at h
    split at h <;> cases h

end

theorem tokens_eq (cur : Cursor) (before : Array Token) : cur.tokens before = match cur.next with
    | (.token t, after) => after.tokens (before.push t)
    | (.atEnd, _) => (before, none)
    | (.error e, _) => (before, some e) := by
  rw [tokens]
  split
  · next hnext => rw [hnext]
  · next hnext => rw [hnext]
  · next hnext => rw [hnext]

theorem tokens_of_token {cur after : Cursor} {t : Token} (h : cur.next = (.token t, after)) (before : Array Token) :
    cur.tokens before = after.tokens (before.push t) := by
  rw [tokens_eq, h]

theorem tokens_of_atEnd {cur after : Cursor} (h : cur.next = (.atEnd, after)) (before : Array Token) :
    cur.tokens before = (before, none) := by
  rw [tokens_eq, h]

theorem tokens_of_error {cur after : Cursor} {e : LexicalError} (h : cur.next = (.error e, after))
    (before : Array Token) : cur.tokens before = (before, some e) := by
  rw [tokens_eq, h]

/-- A text that is scanned is read as tokens that say its lexemes. The first of them is on the
line where the text begins if no line feed stands before it. -/
theorem tokens_of_scans {cs : List Char} {ls : List Lexeme} (h : Scans cs ls) (p : Position) (before : Array Token) :
    ∃ ts : List Token, (⟨p, cs⟩ : Cursor).tokens before = (before ++ ts.toArray, none) ∧
      ts.map (·.lexeme) = ls ∧ Aligned ts ∧
      ('\n' ∉ cs.takeWhile Text.isBlank → ∀ t ∈ ts.head?, t.start.line = p.line) := by
  induction h generalizing p before with
  | @done bs hbs => exact ⟨[], by rw [tokens_of_atEnd (next_of_blanks hbs p), Array.append_empty], rfl, trivial, nofun⟩
  | @more bs w rest l ls hbs hw hline _ ih =>
    obtain ⟨ts, htokens, hlexemes, haligned, hfirst⟩ :=
      ih ((p.advanceAll bs).advanceAll w) (before.push ⟨l, p.advanceAll bs, (p.advanceAll bs).advanceAll w⟩)
    refine ⟨⟨l, p.advanceAll bs, (p.advanceAll bs).advanceAll w⟩ :: ts, ?_, ?_, ⟨?_, haligned⟩, ?_⟩
    · rw [tokens_of_token (next_of_takes hbs hw p), htokens]
      simp
    · rw [List.map_cons, hlexemes]
    · intro hl u hu
      have hfeed := hline hl
      rw [hfirst (fun h => hfeed (List.mem_append_right _ h)) u hu]
      exact Position.line_advanceAll (fun h => hfeed (List.mem_append_left _ h)) _
    · intro hfeed t ht
      obtain rfl := Option.some.inj ht
      refine Position.line_advanceAll (fun h => hfeed ?_) p
      rw [List.takeWhile_append_of_pos hbs]
      exact List.mem_append_left _ h

end Cursor

/-- A text that is scanned is a sequence of tokens. -/
theorem tokenize_of_scans {s : String} {ls : List Lexeme} (h : Scans s.toList ls) :
    ∃ ts, tokenize s = .ok ts ∧ ts.map (·.lexeme) = ls ∧ Aligned ts := by
  obtain ⟨ts, htokens, hlexemes, haligned, -⟩ := Cursor.tokens_of_scans h .start #[]
  refine ⟨ts, ?_, hlexemes, haligned⟩
  unfold tokenize Cursor.ofString
  rw [htokens]
  simp

end Persona
