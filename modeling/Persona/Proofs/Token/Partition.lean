import Mathlib
import Persona.Proofs.Token.Scanning

/-! How the tokens of a source lie in it.

A source that can be read is cut into stretches: a gap, a lexeme, a gap, and so on to the gap at its end. A gap
is blanks and comments, each comment closed. The places of a token are counted from the characters before them,
so that its span is the stretch its lexeme was read from, and `partition_of_tokenize` says so of all tokens of a
source. What the spans leave out is gaps alone. -/
namespace Persona

open Lexer

/-! ### Places -/

/-- The place behind the characters `before` of a source. -/
def Position.behind (before : List Char) : Position where
  line := 1 + before.count '\n'
  column := 1 + (before.reverse.takeWhile (· != '\n')).length
  offset := (String.ofList before).utf8ByteSize

namespace Position

theorem advance_behind (before : List Char) (c : Char) : (behind before).advance c = behind (before ++ [c]) := by
  by_cases hc : c = '\n'
  · simp [advance, behind, hc, Nat.add_assoc]
    decide
  · simp [advance, behind, hc, Nat.add_comm]

theorem advanceAll_behind (before cs : List Char) : (behind before).advanceAll cs = behind (before ++ cs) := by
  induction cs generalizing before with
  | nil => simp
  | cons c cs ih => simp [advance_behind, ih]

theorem offset_behind_append (before cs : List Char) :
    (behind (before ++ cs)).offset = (behind before).offset + (String.ofList cs).utf8ByteSize := by
  simp [behind]

end Position

/-! ### Gaps -/

namespace Lexer

/-- Blanks and comments, with `rest` behind them. A `//` comment ends where its line or the source does, and a
`/*` comment at the first `*/`. -/
inductive Trivia (rest : List Char) : List Char → Prop
  | nothing : Trivia rest []
  | blank {c : Char} {cs : List Char} : Text.isBlank c = true → Trivia rest cs → Trivia rest (c :: cs)
  | line {text cs : List Char} : '\n' ∉ text → (∀ c ∈ (cs ++ rest).head?, c = '\n') → Trivia rest cs →
      Trivia rest ('/' :: '/' :: (text ++ cs))
  | block {text cs : List Char} : ¬ ['*', '/'] <:+: text → Trivia rest cs →
      Trivia rest ('/' :: '*' :: (text ++ '*' :: '/' :: cs))

/-- What is passed over where the reader stands in a gap. -/
def Gap.Passes (rest : List Char) : Gap → List Char → Prop
  | .blank, passed => Trivia rest passed
  | .line, passed => ∃ text cs, passed = text ++ cs ∧ '\n' ∉ text ∧ (∀ c ∈ (cs ++ rest).head?, c = '\n') ∧
      Trivia rest cs
  | .block _, passed => ∃ text cs, passed = text ++ '*' :: '/' :: cs ∧ ¬ ['*', '/'] <:+: text ∧ Trivia rest cs

/-- A gap that ends is made of blanks and comments. -/
theorem passes_gap {mode : Gap} {n stop : Nat} {cs : List Char} (h : gap mode n cs = (stop, none)) :
    ∃ passed rest, cs = passed ++ rest ∧ stop = n + passed.length ∧ mode.Passes rest passed := by
  fun_induction gap mode n cs with
  | case1 n =>
    cases h
    exact ⟨[], [], rfl, rfl, .nothing⟩
  | case2 n cs ih =>
    obtain ⟨_, rest, rfl, rfl, text, cs, rfl, htext, hend, hcs⟩ := ih h
    exact ⟨'/' :: '/' :: (text ++ cs), rest, by simp, by simp; omega, .line htext hend hcs⟩
  | case3 n cs ih =>
    obtain ⟨_, rest, rfl, rfl, text, cs, rfl, htext, hcs⟩ := ih h
    exact ⟨'/' :: '*' :: (text ++ '*' :: '/' :: cs), rest, by simp, by simp; omega, .block htext hcs⟩
  | case4 n c cs _ _ hblank ih =>
    obtain ⟨passed, rest, rfl, rfl, hpassed⟩ := ih h
    exact ⟨c :: passed, rest, rfl, by simp; omega, .blank hblank hpassed⟩
  | case5 n c cs =>
    cases h
    exact ⟨[], c :: cs, rfl, rfl, .nothing⟩
  | case6 n =>
    cases h
    exact ⟨[], [], rfl, rfl, [], [], rfl, by simp, by simp, .nothing⟩
  | case7 n c cs ih =>
    obtain ⟨passed, rest, rfl, rfl, hpassed⟩ := ih h
    refine ⟨c :: passed, rest, rfl, by simp; omega, ?_⟩
    by_cases hc : c = '\n'
    · -- The line feed is no part of the comment it ends.
      rw [if_pos hc] at hpassed
      exact ⟨[], c :: passed, rfl, by simp, by simp [hc], .blank (by simp [hc]; decide) hpassed⟩
    · rw [if_neg hc] at hpassed
      obtain ⟨text, cs, rfl, htext, hend, hcs⟩ := hpassed
      exact ⟨c :: text, cs, rfl, by simp [htext, Ne.symm hc], hend, hcs⟩
  | case8 => cases h
  | case9 _ n cs ih =>
    obtain ⟨passed, rest, rfl, rfl, hpassed⟩ := ih h
    exact ⟨'*' :: '/' :: passed, rest, rfl, by simp; omega, [], passed, rfl, by simp, hpassed⟩
  | case10 opened n c cs hopen ih =>
    obtain ⟨_, rest, rfl, rfl, text, cs, rfl, htext, hcs⟩ := ih h
    refine ⟨c :: (text ++ '*' :: '/' :: cs), rest, by simp, by simp; omega, c :: text, cs, rfl, ?_, hcs⟩
    -- `*/` stands neither in the text nor across its first character.
    intro hinfix
    rcases List.infix_cons_iff.1 hinfix with hfront | hinside
    · obtain ⟨hc, tail, rfl⟩ : '*' = c ∧ ∃ tail, text = '/' :: tail := by
        simpa [List.cons_prefix_iff, eq_comm, and_assoc] using hfront
      exact hopen (tail ++ '*' :: '/' :: cs ++ rest) hc.symm (by simp)
    · exact htext hinside

end Lexer

/-! ### Lexemes -/

/-- The lexeme stands in the source as `word`. -/
def Lexeme.StandsAs (word : List Char) : Lexeme → Prop
  | .keyword k => word = k.text.toList
  | .mark m => word = m.text.toList
  | .number s => word = s.toList
  | .name s => word = s.toList ∧ ∀ k : Keyword, k.text ≠ s
  | .string _ => ∃ quote text, (quote = '"' ∨ quote = '\'') ∧ word = quote :: text ++ [quote]

theorem Keyword.text_of_ofText? {s : String} {k : Keyword} (h : ofText? s = some k) : k.text = s :=
  eq_of_beq (List.find?_some (p := fun k : Keyword => k.text == s) h)

theorem Keyword.text_ne {s : String} (h : ofText? s = none) (k : Keyword) : k.text ≠ s := by
  have hk := List.find?_eq_none.1 h k k.mem_all
  simpa using hk

namespace Lexer

theorem prefix_fractionRun (cs : List Char) : fractionRun cs <+: cs := by
  unfold fractionRun
  split
  · split
    · exact List.nil_prefix
    · exact List.cons_prefix_cons.2 ⟨rfl, List.takeWhile_prefix _⟩
  · exact List.nil_prefix

theorem prefix_append {a b cs : List Char} (ha : a <+: cs) (hb : b <+: cs.drop a.length) : a ++ b <+: cs := by
  rw [← List.prefix_iff_eq_append.1 ha]
  exact (List.prefix_append_right_inj a).2 hb

theorem prefix_exponentRun (cs : List Char) : exponentRun cs <+: cs := by
  unfold exponentRun
  split
  · next e cs =>
    split
    · dsimp only
      split
      · exact List.nil_prefix
      · refine List.cons_prefix_cons.2 ⟨rfl, prefix_append ?_ (List.takeWhile_prefix _)⟩
        split <;> simp
    · exact List.nil_prefix
  · exact List.nil_prefix

/-- A number is read from the characters it is spelled with. -/
theorem prefix_numberRun (cs : List Char) : numberRun cs <+: cs := by
  have hwhole : digitRun cs <+: cs := List.takeWhile_prefix _
  exact prefix_append (prefix_append hwhole (prefix_fractionRun _)) (prefix_exponentRun _)

theorem stands_munchNumber {cs : List Char} {l : Lexeme} (h : (munchNumber cs).result = .ok l) :
    ∃ word rest, cs = word ++ rest ∧ word.length = (munchNumber cs).taken ∧ l.StandsAs word := by
  obtain ⟨rest, hrest⟩ := prefix_numberRun cs
  simp only [munchNumber] at h ⊢
  split at h
  · cases h
  · split at h
    · cases h
      exact ⟨numberRun cs, rest, hrest.symm, rfl, by simp [Lexeme.StandsAs]⟩
    · cases h

theorem stands_munchWord (cs : List Char) {l : Lexeme} (h : (munchWord cs).result = .ok l) :
    ∃ word rest, cs = word ++ rest ∧ word.length = (munchWord cs).taken ∧ l.StandsAs word := by
  refine ⟨cs.takeWhile isNamePart, cs.dropWhile isNamePart, List.takeWhile_append_dropWhile.symm, rfl, ?_⟩
  simp only [munchWord] at h
  split at h
  · next k hk =>
    cases h
    simp [Lexeme.StandsAs, Keyword.text_of_ofText? hk]
  · next hk =>
    cases h
    exact ⟨by simp, Keyword.text_ne hk⟩

/-- A literal ends at the delimiter that began it. -/
theorem stands_munchString {quote : Char} {taken : Nat} {text cs : List Char} {l : Lexeme}
    (h : (munchString quote taken text cs).result = .ok l) :
    ∃ word rest, cs = word ++ quote :: rest ∧
      (munchString quote taken text cs).taken = taken + word.length + 1 ∧ ∃ s, l = .string s := by
  fun_induction munchString quote taken text cs with
  | case2 taken text cs =>
    cases h
    exact ⟨[], cs, rfl, rfl, _, rfl⟩
  | case4 taken text d cs _ _ _ ih =>
    obtain ⟨word, rest, rfl, htaken, hl⟩ := ih h
    exact ⟨_ :: d :: word, rest, rfl, by simp [htaken]; omega, hl⟩
  | case6 taken text c cs _ _ ih =>
    obtain ⟨word, rest, rfl, htaken, hl⟩ := ih h
    exact ⟨c :: word, rest, rfl, by simp [htaken]; omega, hl⟩
  | _ => cases h

theorem text_markAt {c : Char} {next : Option Char} {m : Mark} {n : Nat} (h : markAt c next = some (m, n)) :
    m.text.toList = c :: next.toList.take (n - 1) ∧ m.text.toList.length = n := by
  unfold markAt at h
  split at h <;> cases h <;> exact ⟨rfl, rfl⟩

/-- A lexeme is read from the characters it stands as. -/
theorem stands_munch {c : Char} {cs : List Char} {l : Lexeme} (h : (munch c cs).result = .ok l) :
    ∃ word rest, c :: cs = word ++ rest ∧ word.length = (munch c cs).taken ∧ l.StandsAs word := by
  unfold munch at h ⊢
  split at h
  · next hquote =>
    obtain ⟨text, rest, rfl, htaken, s, rfl⟩ := stands_munchString h
    exact ⟨c :: text ++ [c], rest, by simp, by rw [if_pos hquote, htaken]; simp; omega, c, text, hquote, rfl⟩
  next hquote =>
  rw [if_neg hquote]
  split at h
  · next hdigit =>
    rw [if_pos hdigit]
    exact stands_munchNumber h
  next hdigit =>
  rw [if_neg hdigit]
  split at h
  · next hstart =>
    rw [if_pos hstart]
    exact stands_munchWord _ h
  next hstart =>
  rw [if_neg hstart]
  split at h
  · next m n hmark =>
    cases h
    obtain ⟨htext, hlength⟩ := text_markAt hmark
    have hprefix : m.text.toList <+: c :: cs := by
      rw [htext]
      cases cs with
      | nil => simp
      | cons d cs => exact List.cons_prefix_cons.2 ⟨rfl, (List.take_prefix _ _).trans (by simp)⟩
    obtain ⟨rest, hrest⟩ := hprefix
    exact ⟨m.text.toList, rest, hrest.symm, hlength, rfl⟩
  · cases h

end Lexer

/-! ### Sources -/

/-- The characters behind `before` are gaps and the lexemes of these tokens by turns, and the places of each token
are counted from the characters before them. -/
inductive Partition : (before cs : List Char) → List Token → Prop
  | done {before gap : List Char} : Trivia [] gap → Partition before gap []
  | more {before gap word rest : List Char} {t : Token} {ts : List Token} : Trivia (word ++ rest) gap →
      word ≠ [] → t.lexeme.StandsAs word → t.start = .behind (before ++ gap) →
      t.stop = .behind (before ++ gap ++ word) → Partition (before ++ gap ++ word) rest ts →
      Partition before (gap ++ (word ++ rest)) (t :: ts)

namespace Cursor

/-- What is left at the end of a source is blanks and comments. -/
theorem trivia_of_atEnd {cur after : Cursor} (h : cur.next = (.atEnd, after)) : Trivia [] cur.rest := by
  obtain ⟨n, hgap, hrest⟩ := exists_gap_of_atEnd h
  obtain ⟨gap, rest, hcur, rfl, htrivia⟩ := passes_gap hgap
  obtain rfl : rest = [] := by simpa [skip, hcur] using hrest
  simpa [hcur, Gap.Passes] using htrivia

/-- A token is read from a gap and the characters its lexeme stands as. -/
theorem exists_stretch {before cs : List Char} {after : Cursor} {t : Token}
    (h : (⟨.behind before, cs⟩ : Cursor).next = (.token t, after)) :
    ∃ gap word rest, cs = gap ++ (word ++ rest) ∧ Trivia (word ++ rest) gap ∧ word ≠ [] ∧
      t.lexeme.StandsAs word ∧ t.start = .behind (before ++ gap) ∧ t.stop = .behind (before ++ gap ++ word) ∧
      after = ⟨.behind (before ++ gap ++ word), rest⟩ := by
  obtain ⟨n, c, tail, l, hgap, hrest, hmunch, rfl, rfl⟩ := exists_munch h
  obtain ⟨gap, rest, rfl, rfl, htrivia⟩ := passes_gap hgap
  rw [Nat.zero_add, skip_append, Position.advanceAll_behind] at hrest ⊢
  obtain rfl : rest = c :: tail := hrest
  obtain ⟨word, rest, hword, hlength, hstands⟩ := stands_munch hmunch
  have hne : word ≠ [] := by
    have hpos := munch_taken c tail
    rintro rfl
    simp at hlength
    omega
  rw [hword] at htrivia
  rw [hword, ← hlength, skip_append, Position.advanceAll_behind]
  exact ⟨gap, word, rest, rfl, htrivia, hne, hstands, rfl, rfl, rfl⟩

theorem partition_tokens {before cs : List Char} {cur : Cursor} {read all : Array Token}
    (hcur : cur = ⟨.behind before, cs⟩) (h : cur.tokens read = (all, none)) :
    ∃ ts, all.toList = read.toList ++ ts ∧ Partition before cs ts := by
  fun_induction tokens cur read generalizing before cs with
  | case1 cur read after hnext =>
    cases h
    subst hcur
    exact ⟨[], by simp, .done (trivia_of_atEnd hnext)⟩
  | case2 => cases h
  | case3 cur read t after hnext ih =>
    subst hcur
    obtain ⟨gap, word, rest, rfl, htrivia, hne, hstands, hstart, hstop, hafter⟩ := exists_stretch hnext
    obtain ⟨ts, hall, hts⟩ := ih hafter h
    exact ⟨t :: ts, by simp [hall], .more htrivia hne hstands hstart hstop hts⟩

end Cursor

/-- Of two cuts of one list, the earlier front begins the later. -/
theorem prefix_of_cut {a b c d : List Char} (h : a ++ b = c ++ d) (hle : a.length ≤ c.length) : ∃ e, a ++ e = c :=
  List.prefix_of_prefix_length_le (List.prefix_append a b) (h ▸ List.prefix_append c d) hle

namespace Partition

variable {before cs : List Char} {ts : List Token}

/-- The tokens start behind what was read before them. -/
theorem offset_le_start (h : Partition before cs ts) : ∀ t ∈ ts, (Position.behind before).offset ≤ t.start.offset := by
  induction h with
  | done => simp
  | @more before gap word rest t ts _ _ _ hstart _ _ ih =>
    have hgap := Position.offset_behind_append before gap
    have hword := Position.offset_behind_append (before ++ gap) word
    intro u hu
    rcases List.mem_cons.1 hu with rfl | hu
    · rw [hstart, hgap]
      exact Nat.le_add_right ..
    · have hlater := ih u hu
      omega

/-- A token ends behind its start. -/
theorem start_lt_stop (h : Partition before cs ts) : ∀ t ∈ ts, t.start.offset < t.stop.offset := by
  induction h with
  | done => simp
  | @more before gap word rest t ts _ hne _ hstart hstop _ ih =>
    intro u hu
    rcases List.mem_cons.1 hu with rfl | hu
    · have hsize : 0 < (String.ofList word).utf8ByteSize := by
        rw [Nat.pos_iff_ne_zero]
        simpa using hne
      rw [hstart, hstop, Position.offset_behind_append (before ++ gap)]
      omega
    · exact ih u hu

/-- The spans come one behind the other. -/
theorem pairwise_spans (h : Partition before cs ts) : ts.Pairwise fun t u => t.stop.offset ≤ u.start.offset := by
  induction h with
  | done => simp
  | @more before gap word rest t ts _ _ _ _ hstop hrest ih =>
    rw [List.pairwise_cons, hstop]
    exact ⟨hrest.offset_le_start, ih⟩

/-- The ends of a span cut the source between characters, and the lexeme stands between them. -/
theorem exists_slice (h : Partition before cs ts) : ∀ t ∈ ts, ∃ front word rest, before ++ cs = front ++ word ++ rest ∧
    t.start = .behind front ∧ t.stop = .behind (front ++ word) ∧ t.lexeme.StandsAs word := by
  induction h with
  | done => simp
  | @more before gap word rest t ts _ _ hstands hstart hstop _ ih =>
    intro u hu
    rcases List.mem_cons.1 hu with rfl | hu
    · exact ⟨before ++ gap, word, rest, by simp, hstart, hstop, hstands⟩
    · simpa using ih u hu

/-- A character that no span holds is part of a gap. -/
theorem exists_gap (h : Partition before cs ts) {front rest : List Char} {c : Char} (hcs : cs = front ++ c :: rest)
    (hout : ∀ t ∈ ts, ¬ (t.start.offset ≤ (Position.behind (before ++ front)).offset ∧
      (Position.behind (before ++ front)).offset < t.stop.offset)) :
    ∃ left gap right, before ++ cs = left ++ gap ++ right ∧ Trivia right gap ∧
      left.length ≤ (before ++ front).length ∧ (before ++ front).length < (left ++ gap).length := by
  induction h generalizing front with
  | @done before gap htrivia =>
    exact ⟨before, gap, [], by simp, htrivia, by simp, by simp [hcs]⟩
  | @more before gap word tail t ts htrivia _ _ hstart hstop _ ih =>
    rcases Nat.lt_or_ge front.length gap.length with hin | hbehind
    · exact ⟨before, gap, word ++ tail, by simp, htrivia, by simp, by simp [hin]⟩
    obtain ⟨front, rfl⟩ := prefix_of_cut hcs hbehind
    replace hcs : word ++ tail = front ++ c :: rest := by simpa using hcs
    rcases Nat.lt_or_ge front.length word.length with hin | hbehind
    · -- The character is in the span of the first token.
      obtain ⟨inside, rfl⟩ := prefix_of_cut hcs.symm (Nat.le_of_lt hin)
      have hsize : 0 < (String.ofList inside).utf8ByteSize := by
        rw [Nat.pos_iff_ne_zero]
        rintro hzero
        simp_all
      refine absurd ⟨?_, ?_⟩ (hout t (by simp))
      · rw [hstart, ← List.append_assoc, Position.offset_behind_append (before ++ gap)]
        exact Nat.le_add_right ..
      · rw [hstop, ← List.append_assoc, ← List.append_assoc, Position.offset_behind_append (before ++ gap ++ front)]
        omega
    · obtain ⟨front, rfl⟩ := prefix_of_cut hcs hbehind
      have hrest : tail = front ++ c :: rest := by simpa using hcs
      simpa using ih hrest fun u hu => by simpa using hout u (by simp [hu])

end Partition

/-- Tokens cut their source: each span holds characters, the spans come one behind the other, between characters,
and a lexeme stands where its span says. All else is blanks and comments. -/
theorem partition_of_tokenize {source : String} {ts : List Token} (h : tokenize source = .ok ts) :
    Partition [] source.toList ts ∧
    (∀ t ∈ ts, t.start.offset < t.stop.offset) ∧
    (ts.Pairwise fun t u => t.stop.offset ≤ u.start.offset) ∧
    (∀ t ∈ ts, ∃ front word rest, source.toList = front ++ word ++ rest ∧ t.start = .behind front ∧
      t.stop = .behind (front ++ word) ∧ t.lexeme.StandsAs word) ∧
    (∀ front c rest, source.toList = front ++ c :: rest →
      (∀ t ∈ ts, ¬ (t.start.offset ≤ (Position.behind front).offset ∧
        (Position.behind front).offset < t.stop.offset)) →
      ∃ left gap right, source.toList = left ++ gap ++ right ∧ Trivia right gap ∧
        left.length ≤ front.length ∧ front.length < (left ++ gap).length) := by
  have hts : Partition [] source.toList ts := by
    unfold tokenize at h
    split at h
    · next all hall =>
      cases h
      have hstart : Cursor.ofString source = ⟨.behind [], source.toList⟩ := rfl
      obtain ⟨ts, hts, hpartition⟩ := Cursor.partition_tokens hstart hall
      rw [hts]
      simpa using hpartition
    · cases h
  refine ⟨hts, hts.start_lt_stop, hts.pairwise_spans, hts.exists_slice, fun front c rest hcs hout => ?_⟩
  exact hts.exists_gap hcs hout

/-- Both kinds of comment, a character of two bytes and a literal of two lines. -/
def commentedSource : String := "/*é*/ x1 // y\n'a\nb' 2"

def commentedTokens : List Token :=
  [⟨.name "x1", ⟨1, 7, 7⟩, ⟨1, 9, 9⟩⟩,
   ⟨.string "a\nb", ⟨2, 1, 15⟩, ⟨3, 3, 20⟩⟩,
   ⟨.number "2", ⟨3, 4, 21⟩, ⟨3, 5, 22⟩⟩]

theorem tokenize_commented : tokenize commentedSource = .ok commentedTokens := by cbv

theorem partition_commented : tokenize commentedSource = .ok commentedTokens ∧
    Partition [] commentedSource.toList commentedTokens :=
  ⟨tokenize_commented, (partition_of_tokenize tokenize_commented).1⟩

end Persona
