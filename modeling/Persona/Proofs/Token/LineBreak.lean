import Mathlib
import Persona.Proofs.Token.Partition

/-! Sources one under the other.

No token and no comment that ends goes over a line feed unless it is closed behind it: a `//` comment ends there, and
no mark, word or number goes on with it, nor does what the lexer looks ahead to. So a source that can be read is
read the same with a line feed and another source behind it, and then that one is read as it is read alone. Its places
are further down by the lines of the first, and further on by its bytes, and the columns are the same. -/
namespace Persona

open Lexer

/-! ### Places under a text -/

/-- A place of a text, where that stands on the lines under `above`. -/
def Position.under (above : String) (p : Position) : Position where
  line := p.line + (1 + above.toList.count '\n')
  column := p.column
  offset := p.offset + (above.utf8ByteSize + 1)

def Token.under (above : String) (t : Token) : Token :=
  { t with start := t.start.under above, stop := t.stop.under above }

def LexicalError.under (above : String) (e : LexicalError) : LexicalError :=
  { e with position := e.position.under above }

namespace Position

theorem advance_under (above : String) (p : Position) (c : Char) :
    (p.under above).advance c = (p.advance c).under above := by
  unfold advance
  split
  · simp only [under, mk.injEq, true_and]
    omega
  · simp only [under, mk.injEq, true_and]
    omega

theorem advanceAll_under (above : String) (p : Position) (cs : List Char) :
    (p.under above).advanceAll cs = (p.advanceAll cs).under above := by
  induction cs generalizing p with
  | nil => rfl
  | cons c cs ih => rw [advanceAll_cons, advance_under, ih, advanceAll_cons]

/-- The first line under a text begins behind its line feed. -/
theorem behind_lineFeed (above : String) : behind (above.toList ++ ['\n']) = start.under above := by
  have hfeed : (String.ofList ['\n']).utf8ByteSize = 1 := by decide
  simp [behind, under, start, hfeed]
  omega

end Position

/-! ### Reading further down -/

namespace Cursor

def under (above : String) (cur : Cursor) : Cursor := ⟨cur.position.under above, cur.rest⟩

def Reading.under (above : String) : Reading → Reading
  | .token t => .token (t.under above)
  | .atEnd => .atEnd
  | .error e => .error (e.under above)

variable {above : String}

theorem skip_under (cur : Cursor) (n : Nat) : (cur.under above).skip n = (cur.skip n).under above := by
  simp only [skip, under, Position.advanceAll_under]

theorem token_under (cur : Cursor) :
    (cur.under above).token = (cur.token.1.under above, cur.token.2.under above) := by
  unfold token
  cases hrest : cur.rest with
  | nil =>
    simp only [under, hrest]
    rfl
  | cons c cs =>
    have hunder : (cur.under above).rest = c :: cs := hrest
    simp only [hunder, skip_under]
    cases (munch c cs).result with
    | ok lexeme => rfl
    | error e => rfl

/-- The same is read, with its places further down. -/
theorem next_under (above : String) (cur : Cursor) :
    (cur.under above).next = (cur.next.1.under above, cur.next.2.under above) := by
  unfold next
  have hrest : (cur.under above).rest = cur.rest := rfl
  rw [hrest]
  obtain ⟨n, _ | opened⟩ := gap .blank 0 cur.rest
  · simp only [skip_under, token_under]
  · simp only [skip_under]
    rfl

/-- Behind tokens of a text above, the tokens are those of the text alone, further down. -/
theorem tokens_under (above : String) (cur : Cursor) (front before : Array Token) :
    (cur.under above).tokens (front ++ before.map (Token.under above)) =
      (front ++ (cur.tokens before).1.map (Token.under above),
        (cur.tokens before).2.map (LexicalError.under above)) := by
  fun_induction tokens cur before with
  | case1 cur before after hnext =>
    have hunder := cur.next_under above
    rw [hnext] at hunder
    exact tokens_of_atEnd hunder _
  | case2 cur before e after hnext =>
    have hunder := cur.next_under above
    rw [hnext] at hunder
    exact tokens_of_error hunder _
  | case3 cur before t after hnext ih =>
    have hunder := cur.next_under above
    rw [hnext] at hunder
    rw [tokens_of_token hunder, ← ih, Array.map_push, Array.append_push]

end Cursor

/-! ### Gaps up to a line feed -/

namespace Lexer

variable {bs : List Char}

/-- What begins in front of a line feed and is none itself stands in the source before it. -/
theorem exists_front {d : Char} {cs tail : List Char} (hd : d ≠ '\n') (h : cs ++ '\n' :: bs = d :: tail) :
    ∃ front, cs = d :: front := by
  cases cs with
  | nil =>
    cases h
    exact absurd rfl hd
  | cons c cs =>
    cases h
    exact ⟨cs, rfl⟩

/-- The count of a gap goes on from where it began. -/
def Gap.later (k : Nat) : Gap → Gap
  | .blank => .blank
  | .line => .line
  | .block opened => .block (opened + k)

theorem gap_later (mode : Gap) (n k : Nat) (cs : List Char) :
    gap (mode.later k) (n + k) cs = ((gap mode n cs).1 + k, (gap mode n cs).2.map (· + k)) := by
  fun_induction gap mode n cs with
  | case1 n => rfl
  | case2 n cs ih => rw [← ih, Gap.later, Gap.later, gap, Nat.add_right_comm]
  | case3 n cs ih => rw [← ih, Gap.later, Gap.later, gap, Nat.add_right_comm]
  | case4 n c cs _ _ hblank ih => rw [← ih, Gap.later, gap_blank hblank, Nat.add_right_comm]
  | case5 n c cs hline hblock hblank =>
    refine gap_stop (Bool.eq_false_iff.2 hblank) (fun hslash => ⟨fun hhead => ?_, fun hhead => ?_⟩) _
    · obtain ⟨tail, rfl⟩ := List.head?_eq_some_iff.1 hhead
      exact hline tail hslash rfl
    · obtain ⟨tail, rfl⟩ := List.head?_eq_some_iff.1 hhead
      exact hblock tail hslash rfl
  | case6 n => rfl
  | case7 n c cs ih =>
    rw [← ih, Gap.later, gap, Nat.add_right_comm]
    split
    · rfl
    · rfl
  | case8 opened n => rfl
  | case9 opened n cs ih => rw [← ih, Gap.later, Gap.later, gap, Nat.add_right_comm]
  | case10 opened n c cs hopen ih =>
    rw [← ih, Gap.later, gap, Nat.add_right_comm]
    exact hopen

/-- A gap that ends does so at the same place with a line feed behind the source, or it goes on behind that. -/
theorem gap_lineFeed {mode : Gap} {n stop : Nat} {cs : List Char} (h : gap mode n cs = (stop, none)) :
    (stop < n + cs.length ∧ gap mode n (cs ++ '\n' :: bs) = (stop, none)) ∨
      (stop = n + cs.length ∧ gap mode n (cs ++ '\n' :: bs) = gap .blank (stop + 1) bs) := by
  fun_induction gap mode n cs with
  | case1 n =>
    cases h
    exact .inr ⟨rfl, gap_blank (by decide) stop bs⟩
  | case2 n cs ih => simpa [gap, Nat.add_assoc, Nat.add_comm 2] using ih h
  | case3 n cs ih => simpa [gap, Nat.add_assoc, Nat.add_comm 2] using ih h
  | case4 n c cs _ _ hblank ih =>
    rw [List.cons_append, gap_blank hblank, List.length_cons, ← Nat.add_assoc, Nat.add_right_comm]
    exact ih h
  | case5 n c cs hline hblock hblank =>
    cases h
    refine .inl ⟨by simp, gap_stop (Bool.eq_false_iff.2 hblank) (fun hslash => ⟨fun hhead => ?_, fun hhead => ?_⟩) _⟩
    · obtain ⟨tail, htail⟩ := List.head?_eq_some_iff.1 hhead
      obtain ⟨front, rfl⟩ := exists_front (by decide) htail
      exact hline front hslash rfl
    · obtain ⟨tail, htail⟩ := List.head?_eq_some_iff.1 hhead
      obtain ⟨front, rfl⟩ := exists_front (by decide) htail
      exact hblock front hslash rfl
  | case6 n =>
    cases h
    exact .inr ⟨rfl, rfl⟩
  | case7 n c cs ih =>
    rw [List.cons_append, gap, List.length_cons, ← Nat.add_assoc, Nat.add_right_comm]
    exact ih h
  | case8 => cases h
  | case9 opened n cs ih => simpa [gap, Nat.add_assoc, Nat.add_comm 2] using ih h
  | case10 opened n c cs hopen ih =>
    rw [List.cons_append, gap, List.length_cons, ← Nat.add_assoc, Nat.add_right_comm]
    · exact ih h
    · intro tail hstar htail
      obtain ⟨front, rfl⟩ := exists_front (by decide) htail
      exact hopen front hstar rfl

/-! ### Lexemes before a line feed -/

/-- A run of characters of which a line feed is none ends before it. -/
theorem takeWhile_lineFeed {p : Char → Bool} (hp : p '\n' = false) (cs : List Char) :
    (cs ++ '\n' :: bs).takeWhile p = cs.takeWhile p := by
  rw [List.takeWhile_append]
  split
  · next hall =>
    rw [List.takeWhile_cons_of_neg (by rw [hp]; exact Bool.false_ne_true), List.append_nil]
    exact ((List.takeWhile_prefix p).eq_of_length hall).symm
  · rfl

/-- What is left behind characters that stand before the line feed. -/
theorem drop_lineFeed {front cs : List Char} (h : front <+: cs) :
    (cs ++ '\n' :: bs).drop front.length = cs.drop front.length ++ '\n' :: bs :=
  List.drop_append_of_le_length h.length_le

theorem digitRun_lineFeed (cs : List Char) : digitRun (cs ++ '\n' :: bs) = digitRun cs :=
  takeWhile_lineFeed (by decide) cs

theorem fractionRun_lineFeed (cs : List Char) : fractionRun (cs ++ '\n' :: bs) = fractionRun cs := by
  cases cs with
  | nil => rfl
  | cons c cs =>
    by_cases hpoint : c = '.'
    · subst hpoint
      simp only [List.cons_append, fractionRun, digitRun_lineFeed]
    · simp [fractionRun, hpoint]

theorem exponentRun_lineFeed (cs : List Char) : exponentRun (cs ++ '\n' :: bs) = exponentRun cs := by
  have hdigits : digitRun ('\n' :: bs) = digitRun [] := digitRun_lineFeed []
  rcases cs with _ | ⟨e, _ | ⟨c, cs⟩⟩
  · rfl
  · simp [exponentRun, hdigits]
  · by_cases hplus : c = '+'
    · subst hplus
      simp [exponentRun, digitRun_lineFeed]
    · by_cases hminus : c = '-'
      · subst hminus
        simp [exponentRun, digitRun_lineFeed]
      · have hrun : digitRun (c :: (cs ++ '\n' :: bs)) = digitRun (c :: cs) := digitRun_lineFeed (c :: cs)
        simp [exponentRun, hplus, hminus, hrun]

theorem numberRun_lineFeed (cs : List Char) : numberRun (cs ++ '\n' :: bs) = numberRun cs := by
  have hwhole : digitRun cs <+: cs := List.takeWhile_prefix _
  have hfraction := prefix_append hwhole (prefix_fractionRun (cs.drop (digitRun cs).length))
  simp only [numberRun, digitRun_lineFeed, drop_lineFeed hwhole, fractionRun_lineFeed, drop_lineFeed hfraction,
    exponentRun_lineFeed]

theorem munchNumber_lineFeed (cs : List Char) : munchNumber (cs ++ '\n' :: bs) = munchNumber cs := by
  have hwhole : digitRun cs <+: cs := List.takeWhile_prefix _
  have hglued (cs : List Char) : (cs ++ '\n' :: bs).takeWhile isGlued = cs.takeWhile isGlued :=
    takeWhile_lineFeed (by decide) cs
  unfold munchNumber
  simp only [digitRun_lineFeed, drop_lineFeed hwhole, fractionRun_lineFeed, numberRun_lineFeed,
    drop_lineFeed (prefix_numberRun cs), hglued]
  cases cs.drop (digitRun cs).length with
  | nil => rfl
  | cons c tail =>
    by_cases hpoint : c = '.'
    · subst hpoint
      cases fractionRun ('.' :: tail) with
      | nil => rfl
      | cons d ds => rfl
    · simp [hpoint]

theorem munchWord_lineFeed (cs : List Char) : munchWord (cs ++ '\n' :: bs) = munchWord cs := by
  have hrun : (cs ++ '\n' :: bs).takeWhile isNamePart = cs.takeWhile isNamePart := takeWhile_lineFeed (by decide) cs
  unfold munchWord
  simp only [hrun]

/-- A literal that ends is read up to its delimiter. -/
theorem munchString_lineFeed {quote : Char} {taken : Nat} {text cs : List Char} {l : Lexeme}
    (h : (munchString quote taken text cs).result = .ok l) :
    munchString quote taken text (cs ++ '\n' :: bs) = munchString quote taken text cs := by
  fun_induction munchString quote taken text cs with
  | case2 taken text cs =>
    rw [List.cons_append, munchString.eq_def]
    simp
  | case4 taken text d cs x hunescape hquote ih =>
    rw [List.cons_append, List.cons_append, munchString.eq_def]
    simp [hquote, hunescape, ih h]
  | case6 taken text c cs hquote hslash ih =>
    rw [List.cons_append, munchString.eq_def]
    simp [hquote, hslash, ih h]
  | _ => cases h

theorem markAt_lineFeed (c : Char) : markAt c (some '\n') = markAt c none := by
  unfold markAt
  split <;> simp_all

/-- A lexeme that is read is read with a line feed behind it too. -/
theorem munch_lineFeed {c : Char} {cs : List Char} {l : Lexeme} (h : (munch c cs).result = .ok l) :
    munch c (cs ++ '\n' :: bs) = munch c cs := by
  have hmark : markAt c (cs ++ '\n' :: bs).head? = markAt c cs.head? := by
    cases cs with
    | nil => exact markAt_lineFeed c
    | cons d cs => rfl
  unfold munch at h ⊢
  rw [hmark, ← List.cons_append, munchNumber_lineFeed, munchWord_lineFeed]
  split
  · next hquote =>
    rw [if_pos hquote] at h
    exact munchString_lineFeed h
  · rfl

end Lexer

/-! ### Sources -/

namespace Cursor

variable {bs : List Char} {cur after : Cursor} {t : Token}

/-- The cursor in a source with more behind it. -/
def followedBy (cur : Cursor) (cs : List Char) : Cursor := ⟨cur.position, cur.rest ++ cs⟩

theorem skip_followedBy {n : Nat} (hn : n ≤ cur.rest.length) (cs : List Char) :
    (cur.followedBy cs).skip n = (cur.skip n).followedBy cs := by
  simp only [skip, followedBy, List.take_append_of_le_length hn, List.drop_append_of_le_length hn]

theorem skip_skip (cur : Cursor) (n k : Nat) : (cur.skip n).skip k = cur.skip (n + k) := by
  simp only [skip, List.drop_drop, List.take_add, Position.advanceAll_append]

/-- Where the source ends. -/
def stop (cur : Cursor) : Position := cur.position.advanceAll cur.rest

theorem stop_skip (cur : Cursor) (n : Nat) : (cur.skip n).stop = cur.stop := by
  rw [stop, stop, skip, ← Position.advanceAll_append, List.take_append_drop]

theorem gap_of_atEnd (h : cur.next = (.atEnd, after)) : gap .blank 0 cur.rest = (cur.rest.length, none) := by
  obtain ⟨n, hgap, hrest⟩ := exists_gap_of_atEnd h
  obtain ⟨passed, rest, hcur, rfl, -⟩ := passes_gap hgap
  obtain rfl : rest = [] := by simpa [skip, hcur] using hrest
  rw [hgap, hcur, List.append_nil, Nat.zero_add]

/-- A token is read with a line feed behind the source as it is read without. -/
theorem next_lineFeed (bs : List Char) (h : cur.next = (.token t, after)) :
    (cur.followedBy ('\n' :: bs)).next = (.token t, after.followedBy ('\n' :: bs)) ∧ after.stop = cur.stop := by
  obtain ⟨n, c, cs, l, hgap, hrest, hmunch, rfl, rfl⟩ := exists_munch h
  have hn : n < cur.rest.length := by
    have hlength := congrArg List.length hrest
    rw [skip_rest_length, List.length_cons] at hlength
    omega
  have hgap' : gap .blank 0 (cur.rest ++ '\n' :: bs) = (n, none) := by
    rcases gap_lineFeed hgap with ⟨-, hgap'⟩ | ⟨hend, -⟩
    · exact hgap'
    · omega
  have hskip : (cur.followedBy ('\n' :: bs)).skip n = (cur.skip n).followedBy ('\n' :: bs) :=
    skip_followedBy (Nat.le_of_lt hn) _
  have hmunch' : munch c (cs ++ '\n' :: bs) = munch c cs := munch_lineFeed hmunch
  have htaken : (munch c cs).taken ≤ (cur.skip n).rest.length := by
    obtain ⟨word, rest, hword, hlength, -⟩ := stands_munch hmunch
    rw [hrest, hword, ← hlength, List.length_append]
    exact Nat.le_add_right ..
  refine ⟨?_, by rw [stop_skip, stop_skip]⟩
  have hrest' : ((cur.followedBy ('\n' :: bs)).skip n).rest = c :: (cs ++ '\n' :: bs) := by
    rw [hskip, followedBy, hrest, List.cons_append]
  rw [next_of_munch hgap' hrest' (by rw [hmunch', hmunch]), hmunch', hskip, skip_followedBy htaken]
  rfl

/-- Where the source ends, a line feed is one more blank in front of what is behind it. -/
theorem next_lineFeed_of_atEnd (h : cur.next = (.atEnd, after)) :
    (cur.followedBy ('\n' :: bs)).next = (⟨cur.stop.advance '\n', bs⟩ : Cursor).next := by
  have hgap : gap .blank 0 (cur.followedBy ('\n' :: bs)).rest = ((gap .blank 0 bs).1 + (cur.rest.length + 1),
      (gap .blank 0 bs).2.map (· + (cur.rest.length + 1))) := by
    rw [← gap_later, Gap.later]
    rcases gap_lineFeed (gap_of_atEnd h) with ⟨hlt, -⟩ | ⟨-, hgap⟩
    · omega
    · exact hgap.trans (by rw [Nat.zero_add])
  have hskip : (cur.followedBy ('\n' :: bs)).skip (cur.rest.length + 1) = ⟨cur.stop.advance '\n', bs⟩ := by
    have hall := skip_append cur.position (cur.rest ++ ['\n']) bs
    rw [List.length_append, List.append_assoc, Position.advanceAll_append] at hall
    exact hall
  have hmore (n : Nat) : (cur.followedBy ('\n' :: bs)).skip (n + (cur.rest.length + 1)) =
      (⟨cur.stop.advance '\n', bs⟩ : Cursor).skip n := by
    rw [Nat.add_comm, ← skip_skip, hskip]
  unfold next
  rw [hgap]
  dsimp only
  obtain ⟨n, _ | opened⟩ := gap .blank 0 bs
  · simp only [Option.map_none, hmore]
  · simp only [Option.map_some, hmore]

/-- The tokens depend on what is read next alone. -/
theorem tokens_congr {cur' : Cursor} (h : cur.next = cur'.next) (before : Array Token) :
    cur.tokens before = cur'.tokens before := by
  rw [tokens_eq, h, ← tokens_eq]

/-- Behind a source that can be read and a line feed, reading goes on where that ends. -/
theorem tokens_lineFeed {before all : Array Token} (h : cur.tokens before = (all, none)) :
    (cur.followedBy ('\n' :: bs)).tokens before = (⟨cur.stop.advance '\n', bs⟩ : Cursor).tokens all := by
  fun_induction tokens cur before with
  | case1 cur before after hnext =>
    cases h
    exact tokens_congr (next_lineFeed_of_atEnd hnext) _
  | case2 => cases h
  | case3 cur before t after hnext ih =>
    obtain ⟨hnext', hstop⟩ := next_lineFeed bs hnext
    rw [tokens_of_token hnext', ih h, hstop]

end Cursor

theorem tokens_of_tokenize {source : String} {ts : List Token} (h : tokenize source = .ok ts) :
    (Cursor.ofString source).tokens #[] = (ts.toArray, none) := by
  unfold tokenize at h
  split at h
  · next heq =>
    cases h
    exact heq
  · cases h

/-- A source that can be read and another under it are read one after the other. The tokens of the lower one are those
that it has alone, and if it cannot be read, its error is the one that it has alone; only their places are further
down. -/
theorem tokenize_lineFeed {a : String} {ts : List Token} (ha : tokenize a = .ok ts) (b : String) :
    (∀ us, tokenize b = .ok us → tokenize (a ++ "\n" ++ b) = .ok (ts ++ us.map (Token.under a))) ∧
    ∀ e, tokenize b = .error e → tokenize (a ++ "\n" ++ b) = .error (e.under a) := by
  have hstart : (Cursor.ofString a).stop.advance '\n' = Position.start.under a := by
    have hall := Position.advanceAll_behind [] (a.toList ++ ['\n'])
    rw [Position.advanceAll_append] at hall
    exact hall.trans (Position.behind_lineFeed a)
  have hsource : Cursor.ofString (a ++ "\n" ++ b) = (Cursor.ofString a).followedBy ('\n' :: b.toList) := by
    simp [Cursor.ofString, Cursor.followedBy]
  have hall : (Cursor.ofString (a ++ "\n" ++ b)).tokens #[] =
      (ts.toArray ++ ((Cursor.ofString b).tokens #[]).1.map (Token.under a),
        ((Cursor.ofString b).tokens #[]).2.map (LexicalError.under a)) := by
    have hunder := (Cursor.ofString b).tokens_under a ts.toArray #[]
    rw [Array.map_empty, Array.append_empty] at hunder
    rw [hsource, Cursor.tokens_lineFeed (tokens_of_tokenize ha), hstart]
    exact hunder
  unfold tokenize
  rw [hall]
  obtain ⟨read, _ | e⟩ := (Cursor.ofString b).tokens #[]
  · constructor
    · intro us hb
      cases hb
      simp
    · intro e hb
      cases hb
  · constructor
    · intro us hb
      cases hb
    · intro e' hb
      cases hb
      rfl

/-- A comment that ends with its source, and a literal below it that does not end. -/
theorem tokenize_under_comment :
    tokenize "x // y" = .ok [⟨.name "x", ⟨1, 1, 0⟩, ⟨1, 2, 1⟩⟩] ∧
    tokenize ("x // y" ++ "\n" ++ "z") = .ok [⟨.name "x", ⟨1, 1, 0⟩, ⟨1, 2, 1⟩⟩, ⟨.name "z", ⟨2, 1, 7⟩, ⟨2, 2, 8⟩⟩] ∧
    tokenize ("x // y" ++ "\n" ++ "'z") = .error ⟨.unterminatedString, ⟨2, 1, 7⟩⟩ := by
  have hx : tokenize "x // y" = .ok [⟨.name "x", ⟨1, 1, 0⟩, ⟨1, 2, 1⟩⟩] := by cbv
  exact ⟨hx, (tokenize_lineFeed hx "z").1 [⟨.name "z", ⟨1, 1, 0⟩, ⟨1, 2, 1⟩⟩] (by cbv),
    (tokenize_lineFeed hx "'z").2 ⟨.unterminatedString, ⟨1, 1, 0⟩⟩ (by cbv)⟩

end Persona
