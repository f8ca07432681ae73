import Mathlib.Computability.RegularExpressions
import Persona.Decimal.Reading
import Persona.Proofs.Token.Munch
import Persona.Proofs.Token.Partition
import Persona.Proofs.Token.Reading

/-! Literals.

A text in quotes is one token, whatever its characters, and denotes the text. A number is the longest front of a source
that the grammar of numbers has, and every text of the grammar denotes a number. -/
namespace Persona

open Lexer

/-! ### Texts in quotes -/

/-- A text in quotes stands on one line. -/
theorem Text.lineFeed_not_mem_quote (s : String) : '\n' ∉ (Text.quote s).toList := by
  have hescape : ∀ c, '\n' ∉ Text.escape c := by
    intro c
    unfold Text.escape
    split
    · decide
    repeat' split
    all_goals simp_all [eq_comm]
  rw [toList_quote]
  simp [hescape]

/-- A text in quotes is a single token that denotes it, from the first character to the last. -/
theorem tokenize_quote (s : String) : tokenize (Text.quote s) =
    .ok [⟨.string s, .start, ⟨1, 1 + (Text.quote s).length, (Text.quote s).utf8ByteSize⟩⟩] := by
  have hnext := @Cursor.next_of_takes [] (Text.quote s).toList [] _ nofun (takes_string s []) .start
  have hstop : Position.start.advanceAll (Text.quote s).toList =
      ⟨1, 1 + (Text.quote s).length, (Text.quote s).utf8ByteSize⟩ := by
    rw [Position.advanceAll_of_line (Text.lineFeed_not_mem_quote s), String.length_toList, String.ofList_toList]
    simp [Position.start]
  rw [List.nil_append, List.append_nil, Position.advanceAll_nil, hstop] at hnext
  unfold tokenize Cursor.ofString
  rw [Cursor.tokens_of_token hnext, Cursor.tokens_of_atEnd (@Cursor.next_of_blanks [] nofun _)]
  rfl

/-! ### The grammar of numbers -/

namespace Lexer

open RegularExpression (char)

def digitChars : List Char := ['0', '1', '2', '3', '4', '5', '6', '7', '8', '9']

def digit : RegularExpression Char := (digitChars.map char).sum

def digits : RegularExpression Char := digit * digit.star

/-- `digits ('.' digits)? ([eE] [+-]? digits)?` -/
def numeral : RegularExpression Char :=
  digits * (1 + char '.' * digits) * (1 + (char 'e' + char 'E') * (1 + char '+' + char '-') * digits)

/-- The longest front of a text that an expression matches. -/
structure IsLongest (P : RegularExpression Char) (cs run : List Char) : Prop where
  mem : run ∈ P.matches'
  front : run <+: cs
  longest : ∀ other ∈ P.matches', other <+: cs → other.length ≤ run.length

/-- Digits, at least one. -/
def IsDigits (ds : List Char) : Prop := ds ≠ [] ∧ ∀ c ∈ ds, isDigit c = true

def IsFraction (cs : List Char) : Prop := cs = [] ∨ ∃ ds, cs = '.' :: ds ∧ IsDigits ds

def IsExponent (cs : List Char) : Prop :=
  cs = [] ∨ ∃ e sign ds, cs = e :: (sign ++ ds) ∧ (e = 'e' ∨ e = 'E') ∧ (sign = [] ∨ sign = ['+'] ∨ sign = ['-']) ∧
    IsDigits ds

theorem isDigit_iff {c : Char} : isDigit c = true ↔ c ∈ digitChars := by
  constructor
  · intro h
    obtain ⟨hlow, hhigh⟩ : 48 ≤ c.toNat ∧ c.toNat ≤ 57 := by
      simp only [isDigit, Bool.and_eq_true, decide_eq_true_eq, Char.le_def, UInt32.le_iff_toNat_le] at h
      exact h
    rw [← Char.ofNat_toNat c]
    generalize c.toNat = n at hlow hhigh ⊢
    interval_cases n <;> decide
  · intro h
    have hall : digitChars.all isDigit = true := by rfl
    exact List.all_eq_true.1 hall c h

theorem mem_sum {P : List (RegularExpression Char)} {cs : List Char} :
    cs ∈ P.sum.matches' ↔ ∃ Q ∈ P, cs ∈ Q.matches' := by
  induction P with
  | nil => simp [Language.notMem_zero]
  | cons Q P ih => rw [List.sum_cons, RegularExpression.matches'_add, Language.mem_add, ih, List.exists_mem_cons_iff]

theorem mem_digit {cs : List Char} : cs ∈ digit.matches' ↔ ∃ c, isDigit c = true ∧ cs = [c] := by
  simp only [digit, mem_sum, List.mem_map, isDigit_iff]
  constructor
  · rintro ⟨-, ⟨c, hc, rfl⟩, hcs⟩
    exact ⟨c, hc, hcs⟩
  · rintro ⟨c, hc, rfl⟩
    exact ⟨_, ⟨c, hc, rfl⟩, rfl⟩

theorem mem_digits {ds : List Char} : ds ∈ digits.matches' ↔ IsDigits ds := by
  rw [digits, RegularExpression.matches'_mul, RegularExpression.matches'_star, Language.mem_mul]
  constructor
  · rintro ⟨first, hfirst, rest, hrest, rfl⟩
    obtain ⟨c, hc, rfl⟩ := mem_digit.1 hfirst
    obtain ⟨L, rfl, hL⟩ := Language.mem_kstar.1 hrest
    refine ⟨by simp, List.forall_mem_cons.2 ⟨hc, fun d hd => ?_⟩⟩
    obtain ⟨l, hl, hd⟩ := List.mem_flatten.1 hd
    obtain ⟨c', hc', rfl⟩ := mem_digit.1 (hL l hl)
    exact List.mem_singleton.1 hd ▸ hc'
  · rintro ⟨hne, hds⟩
    obtain ⟨c, ds, rfl⟩ := List.exists_cons_of_ne_nil hne
    obtain ⟨hc, hds⟩ := List.forall_mem_cons.1 hds
    refine ⟨[c], mem_digit.2 ⟨c, hc, rfl⟩, ds, Language.mem_kstar.2 ⟨ds.map fun d => [d], ?_, ?_⟩, rfl⟩
    · simp [← List.flatMap_def]
    · simpa [mem_digit] using hds

theorem mem_numeral {cs : List Char} : cs ∈ numeral.matches' ↔ ∃ whole fraction exponent,
    cs = whole ++ fraction ++ exponent ∧ IsDigits whole ∧ IsFraction fraction ∧ IsExponent exponent := by
  have hchar (c : Char) (cs : List Char) : cs ∈ (char c).matches' ↔ cs = [c] := Iff.rfl
  simp only [numeral, RegularExpression.matches'_mul, RegularExpression.matches'_add, RegularExpression.matches'_epsilon,
    Language.mem_mul, Language.mem_add, Language.mem_one, mem_digits, hchar]
  constructor
  · rintro ⟨_, ⟨whole, hwhole, fraction, hfraction, rfl⟩, exponent, hexponent, rfl⟩
    refine ⟨whole, fraction, exponent, rfl, hwhole, ?_, ?_⟩
    · rcases hfraction with rfl | ⟨_, rfl, ds, hds, rfl⟩
      · exact .inl rfl
      · exact .inr ⟨ds, rfl, hds⟩
    · rcases hexponent with rfl | ⟨_, ⟨e, he, sign, hsign, rfl⟩, ds, hds, rfl⟩
      · exact .inl rfl
      · rcases he with rfl | rfl
        · exact .inr ⟨'e', sign, ds, rfl, .inl rfl, or_assoc.1 hsign, hds⟩
        · exact .inr ⟨'E', sign, ds, rfl, .inr rfl, or_assoc.1 hsign, hds⟩
  · rintro ⟨whole, fraction, exponent, rfl, hwhole, hfraction, hexponent⟩
    refine ⟨_, ⟨whole, hwhole, fraction, ?_, rfl⟩, exponent, ?_, rfl⟩
    · rcases hfraction with rfl | ⟨ds, rfl, hds⟩
      · exact .inl rfl
      · exact .inr ⟨_, rfl, ds, hds, rfl⟩
    · rcases hexponent with rfl | ⟨e, sign, ds, rfl, he, hsign, hds⟩
      · exact .inl rfl
      · exact .inr ⟨_, ⟨[e], by simpa using he, sign, or_assoc.2 hsign, rfl⟩, ds, hds, by simp⟩

/-! ### The longest number -/

section
variable {cs tail : List Char}

/-- Nothing of a number but its digits begins with a digit. -/
theorem not_isDigit_of_isExponent (h : IsExponent tail) : ∀ c ∈ tail.head?, isDigit c = false := by
  rcases h with rfl | ⟨e, sign, ds, rfl, rfl | rfl, -⟩
  · nofun
  · rintro _ ⟨⟩
    rfl
  · rintro _ ⟨⟩
    rfl

theorem not_isDigit_of_isFraction {fraction exponent : List Char} (hfraction : IsFraction fraction)
    (hexponent : IsExponent exponent) : ∀ c ∈ (fraction ++ exponent).head?, isDigit c = false := by
  rcases hfraction with rfl | ⟨ds, rfl, -⟩
  · exact not_isDigit_of_isExponent hexponent
  · rintro _ ⟨⟩
    rfl

theorem isDigits_digitRun {c : Char} (hc : isDigit c = true) (cs : List Char) : IsDigits (digitRun (c :: cs)) := by
  refine ⟨?_, List.all_eq_true.1 List.all_takeWhile⟩
  rw [digitRun, List.takeWhile_cons_of_pos hc]
  exact List.cons_ne_nil _ _

theorem isFraction_fractionRun (cs : List Char) : IsFraction (fractionRun cs) := by
  unfold fractionRun
  split
  · split
    · exact .inl rfl
    · next hne => exact .inr ⟨_, rfl, hne, List.all_eq_true.1 List.all_takeWhile⟩
  · exact .inl rfl

theorem isExponent_exponentRun (cs : List Char) : IsExponent (exponentRun cs) := by
  unfold exponentRun
  split
  · next e cs =>
    split
    · next he =>
      dsimp only
      split
      · exact .inl rfl
      · next hne =>
        refine .inr ⟨e, _, _, List.cons_append, he, ?_, hne, List.all_eq_true.1 List.all_takeWhile⟩
        split <;> simp
    · exact .inl rfl
  · exact .inl rfl

theorem mem_numberRun {c : Char} (hc : isDigit c = true) (cs : List Char) : numberRun (c :: cs) ∈ numeral.matches' :=
  mem_numeral.2 ⟨_, _, _, rfl, isDigits_digitRun hc cs, isFraction_fractionRun _, isExponent_exponentRun _⟩

/-- Digits at the front of a text are all its digits there, or nothing is asked of what is behind them. -/
theorem digits_of_prefix {ds : List Char} (hds : ∀ c ∈ ds, isDigit c = true) (hfront : ds ++ tail <+: cs)
    (htail : ∀ c ∈ tail.head?, isDigit c = false) : ds <+: digitRun cs ∧ (tail = [] ∨ ds = digitRun cs) := by
  obtain ⟨rest, rfl⟩ := hfront
  rw [List.append_assoc]
  refine ⟨?_, ?_⟩
  · rw [digitRun, List.takeWhile_append_of_pos hds]
    exact List.prefix_append ..
  · cases tail with
    | nil => exact .inl rfl
    | cons d tail =>
      refine .inr (Eq.symm ?_)
      rw [List.cons_append]
      exact digitRun_append hds htail

theorem exponentRun_append {e : Char} {sign ds rest : List Char} (he : e = 'e' ∨ e = 'E')
    (hsign : sign = [] ∨ sign = ['+'] ∨ sign = ['-']) (hds : IsDigits ds) :
    exponentRun (e :: (sign ++ (ds ++ rest))) = e :: (sign ++ digitRun (ds ++ rest)) := by
  obtain ⟨hne, hds⟩ := hds
  obtain ⟨d, ds, rfl⟩ := List.exists_cons_of_ne_nil hne
  have hd := hds d List.mem_cons_self
  have hplus : d ≠ '+' := by
    rintro rfl
    exact absurd hd (by decide)
  have hminus : d ≠ '-' := by
    rintro rfl
    exact absurd hd (by decide)
  rcases hsign with rfl | rfl | rfl
  · simp [exponentRun, he, digitRun, hd, hplus, hminus]
  · simp [exponentRun, he, digitRun, hd]
  · simp [exponentRun, he, digitRun, hd]

theorem length_le_exponentRun {exponent : List Char} (h : IsExponent exponent) (hfront : exponent <+: cs) :
    exponent.length ≤ (exponentRun cs).length := by
  obtain ⟨rest, rfl⟩ := hfront
  rcases h with rfl | ⟨e, sign, ds, rfl, he, hsign, hds⟩
  · exact Nat.zero_le _
  have hrun : ds <+: digitRun (ds ++ rest) := by
    rw [digitRun, List.takeWhile_append_of_pos hds.2]
    exact List.prefix_append ..
  rw [List.cons_append, List.append_assoc, exponentRun_append he hsign hds]
  simpa using hrun.length_le

theorem length_le_fractionRun {fraction exponent : List Char} (hfraction : IsFraction fraction)
    (hexponent : IsExponent exponent) (hfront : fraction ++ exponent <+: cs) :
    fraction.length + exponent.length ≤
      (fractionRun cs).length + (exponentRun (cs.drop (fractionRun cs).length)).length := by
  rcases hfraction with rfl | ⟨ds, rfl, hds⟩
  · rcases hexponent with rfl | ⟨e, sign, ds, rfl, he, hrest⟩
    · exact Nat.zero_le _
    obtain ⟨rest, rfl⟩ := hfront
    have hnone : fractionRun (e :: (sign ++ ds) ++ rest) = [] := by
      rcases he with rfl | rfl <;> rfl
    simp only [List.nil_append, hnone, List.length_nil, List.drop_zero, Nat.zero_add]
    exact length_le_exponentRun (.inr ⟨e, sign, ds, rfl, he, hrest⟩) (List.prefix_append ..)
  · obtain ⟨rest, rfl⟩ := hfront
    rw [List.cons_append, List.cons_append, List.append_assoc]
    obtain ⟨hrun, htail⟩ := digits_of_prefix hds.2 (List.prefix_append (ds ++ exponent) rest)
      (not_isDigit_of_isExponent hexponent)
    rw [List.append_assoc] at hrun htail
    have hpoint : fractionRun ('.' :: (ds ++ (exponent ++ rest))) = '.' :: digitRun (ds ++ (exponent ++ rest)) := by
      rw [fractionRun]
      split
      · next hnone =>
        rw [hnone, List.prefix_nil] at hrun
        exact absurd hrun hds.1
      · rfl
    rw [hpoint]
    rcases htail with rfl | heq
    · have := hrun.length_le
      simp only [List.length_cons, List.length_nil]
      omega
    · rw [← heq, List.length_cons, List.drop_succ_cons, List.drop_left]
      have := length_le_exponentRun hexponent (List.prefix_append exponent rest)
      omega

/-- The number that is read is the longest. -/
theorem isLongest_numberRun {c : Char} (hc : isDigit c = true) (cs : List Char) :
    IsLongest numeral (c :: cs) (numberRun (c :: cs)) := by
  refine ⟨mem_numberRun hc cs, prefix_numberRun _, fun other hother hfront => ?_⟩
  obtain ⟨whole, fraction, exponent, rfl, ⟨-, hwhole⟩, hfraction, hexponent⟩ := mem_numeral.1 hother
  generalize c :: cs = cs at hfront ⊢
  simp only [numberRun, List.length_append]
  rw [List.append_assoc] at hfront
  obtain ⟨hfront', hnone | rfl⟩ := digits_of_prefix hwhole hfront (not_isDigit_of_isFraction hfraction hexponent)
  · obtain ⟨rfl, rfl⟩ := List.append_eq_nil_iff.1 hnone
    have := hfront'.length_le
    simp only [List.length_nil]
    omega
  -- The whole part is the same, and so only what is behind it can differ.
  have hbehind : fraction ++ exponent <+: cs.drop (digitRun cs).length := by
    have := hfront.drop (digitRun cs).length
    rwa [List.drop_left] at this
  have hlength := length_le_fractionRun hfraction hexponent hbehind
  rw [← List.drop_drop]
  omega

theorem parted_iff {rest : List Char} : Parted rest ↔ ∀ d ∈ rest.head?, isNamePart d = false ∧ d ≠ '.' := by
  simp [Parted, isGlued]

theorem takeWhile_of_parted {rest : List Char} (h : Parted rest) : rest.takeWhile isGlued = [] := by
  cases rest with
  | nil => rfl
  | cons d rest => exact List.takeWhile_cons_of_neg (by simp [h d rfl])

/-- The longest number is taken if nothing goes on with it, and else the number is wrong. -/
theorem munchNumber_cases (cs : List Char) :
    (Parted (cs.drop (numberRun cs).length) →
      munchNumber cs = ⟨.ok (.number (String.ofList (numberRun cs))), (numberRun cs).length⟩) ∧
    (¬ Parted (cs.drop (numberRun cs).length) →
      ∃ text taken, munchNumber cs = ⟨.error (.invalidNumber text, 0), taken⟩) := by
  unfold munchNumber
  dsimp only
  split
  · next tail hpoint hnone =>
    -- A point without digits behind it is no part of the number.
    have hexponent : exponentRun ('.' :: tail) = [] := by rfl
    have hrun : numberRun cs = digitRun cs := by
      simp only [numberRun, hnone, List.append_nil]
      rw [hpoint, hexponent, List.append_nil]
    rw [hrun, hpoint]
    exact ⟨fun hparted => absurd (hparted '.' rfl) (by decide), fun _ => ⟨_, _, rfl⟩⟩
  · refine ⟨fun hparted => ?_, fun hparted => ?_⟩
    · rw [takeWhile_of_parted hparted]
    · split
      · next hnone =>
        refine absurd (fun d hd => ?_) hparted
        obtain ⟨rest, hrest⟩ := List.head?_eq_some_iff.1 hd
        rw [hrest] at hnone
        exact Bool.eq_false_iff.2 fun hglued => by rw [List.takeWhile_cons_of_pos hglued] at hnone; cases hnone
      · exact ⟨_, _, rfl⟩

/-- A token that is a number has the text of one. -/
theorem mem_of_munch {c : Char} {cs : List Char} {s : String} (h : (munch c cs).result = .ok (.number s)) :
    s.toList ∈ numeral.matches' := by
  unfold munch at h
  split at h
  · obtain ⟨-, -, -, -, _, hstring⟩ := stands_munchString h
    cases hstring
  split at h
  · next hdigit =>
    have hcases := munchNumber_cases (c :: cs)
    by_cases hparted : Parted ((c :: cs).drop (numberRun (c :: cs)).length)
    · rw [hcases.1 hparted] at h
      cases h
      rw [String.toList_ofList]
      exact mem_numberRun hdigit cs
    · obtain ⟨text, taken, herror⟩ := hcases.2 hparted
      rw [herror] at h
      cases h
  split at h
  · simp only [munchWord] at h
    split at h <;> cases h
  split at h <;> cases h

end

end Lexer

namespace Cursor

variable {cur : Cursor} {source : String} {ts : List Token} {c : Char} {cs : List Char}

/-- Behind these tokens of the source and a gap, the cursor stands where the next token starts. -/
def Faces (source : String) (ts : List Token) (cur : Cursor) : Prop :=
  ∃ before n, Reads (ofString source) ts before ∧ gap .blank 0 before.rest = (n, none) ∧ cur = before.skip n

theorem munch_of_isDigit (hc : isDigit c = true) (cs : List Char) : munch c cs = munchNumber (c :: cs) := by
  obtain ⟨-, hdouble, hsingle, -⟩ := of_isDigit hc
  rw [munch, if_neg (not_or.2 ⟨hdouble, hsingle⟩), if_pos hc]

/-- Where a digit is next, the longest number is the next token if nothing goes on with it, and else the source cannot
be read. -/
theorem number_of_faces (h : Faces source ts cur) (hrest : cur.rest = c :: cs) (hc : isDigit c = true) :
    (Parted (cur.skip (numberRun (c :: cs)).length).rest →
      Reads (ofString source) (ts ++ [⟨.number (String.ofList (numberRun (c :: cs))), cur.position,
        (cur.skip (numberRun (c :: cs)).length).position⟩]) (cur.skip (numberRun (c :: cs)).length)) ∧
    (¬ Parted (cur.skip (numberRun (c :: cs)).length).rest →
      ∃ text, tokenize source = .error ⟨.invalidNumber text, cur.position⟩) := by
  obtain ⟨before, n, hreads, hgap, rfl⟩ := h
  have hmunch := munch_of_isDigit hc cs
  have hdrop : ∀ k, ((before.skip n).skip k).rest = (c :: cs).drop k := fun k => congrArg (List.drop k) hrest
  rw [hdrop]
  refine ⟨fun hparted => ?_, fun hparted => ?_⟩
  · rw [(munchNumber_cases (c :: cs)).1 hparted] at hmunch
    have hnext := next_of_munch hgap hrest (congrArg Munch.result hmunch)
    rw [hmunch] at hnext
    exact hreads.append (.one hnext)
  · obtain ⟨text, taken, herror⟩ := (munchNumber_cases (c :: cs)).2 hparted
    rw [herror] at hmunch
    have hnext : before.next = (.error ⟨.invalidNumber text, (before.skip n).position⟩, (before.skip n).skip taken) := by
      unfold next
      simp only [hgap]
      unfold token
      simp only [hrest, hmunch]
      rfl
    exact ⟨text, tokenize_of_error hreads hnext⟩

end Cursor

/-- All number tokens of a source have the texts of numbers. -/
theorem mem_of_tokenize {source : String} {ts : List Token} (h : tokenize source = .ok ts) {t : Token} (ht : t ∈ ts)
    {s : String} (hs : t.lexeme = .number s) : s.toList ∈ numeral.matches' := by
  obtain ⟨-, cur, after, -, hnext⟩ := Cursor.exists_next_of_tokenize h ht
  obtain ⟨n, c, cs, l, -, -, hmunch, rfl, -⟩ := Cursor.exists_munch hnext
  obtain rfl : l = .number s := hs
  exact mem_of_munch hmunch

/-! ### What numbers denote -/

namespace Decimal

variable {whole fraction exponent : List Char}

/-- Digits behind a sign are what is left when the sign is taken away. -/
theorem isDigits_of_signed {sign ds tail : List Char} {c : Char} (hsign : sign = [] ∨ sign = ['+'] ∨ sign = ['-'])
    (hds : IsDigits ds) (h : sign ++ ds = c :: tail) (hc : c = '-' ∨ c = '+') : IsDigits tail := by
  rcases hsign with rfl | rfl | rfl
  · rw [List.nil_append] at h
    subst h
    rcases hc with rfl | rfl
    · exact absurd (hds.2 _ List.mem_cons_self) (by decide)
    · exact absurd (hds.2 _ List.mem_cons_self) (by decide)
  · cases h
    exact hds
  · cases h
    exact hds

/-- Behind a whole part stands a point with digits up to the exponent, or the exponent itself. -/
theorem behind_whole (hfraction : IsFraction fraction) (hexponent : IsExponent exponent) :
    (∃ ds, fraction ++ exponent = '.' :: (ds ++ exponent) ∧ (ds ++ exponent).dropWhile isDecimalDigit = exponent) ∨
      fraction ++ exponent = exponent ∧ ∀ rest, exponent ≠ '.' :: rest := by
  rcases hfraction with rfl | ⟨ds, rfl, hds⟩
  · refine .inr ⟨rfl, ?_⟩
    rintro rest rfl
    rcases hexponent with h | ⟨_, _, _, h, rfl | rfl, -⟩ <;> cases h
  · refine .inl ⟨ds, rfl, ?_⟩
    have hdrop : (ds ++ exponent).dropWhile isDecimalDigit = exponent.dropWhile isDecimalDigit :=
      List.dropWhile_append_of_pos hds.2
    rw [hdrop]
    cases exponent with
    | nil => rfl
    | cons e rest => exact List.dropWhile_cons_of_neg (Bool.eq_false_iff.1 (not_isDigit_of_isExponent hexponent e rfl))

theorem isDigits_iff {tail : List Char} : IsDigits tail ↔ ¬(tail.isEmpty || !tail.all isDecimalDigit) = true := by
  rw [Bool.or_eq_true, not_or, List.isEmpty_iff, Bool.not_eq_true', Bool.not_eq_false, List.all_eq_true]
  rfl

theorem isSome_unsigned? (hwhole : IsDigits whole) (hfraction : IsFraction fraction) (hexponent : IsExponent exponent) :
    (unsigned? (whole ++ fraction ++ exponent)).isSome = true := by
  have hrun : (whole ++ (fraction ++ exponent)).takeWhile isDecimalDigit = whole :=
    digitRun_append hwhole.2 (not_isDigit_of_isFraction hfraction hexponent)
  have hempty : whole.isEmpty = false := List.isEmpty_eq_false_iff.2 hwhole.1
  have hbehind := behind_whole hfraction hexponent
  unfold unsigned?
  simp only [List.append_assoc, hrun, List.drop_left, hempty, Bool.false_and, Bool.false_eq_true, if_false]
  split
  · rfl
  next e rest heq =>
  have hexp : exponent = e :: rest := by
    split at heq
    · next tail hpoint =>
      obtain ⟨ds, hpoint', hdrop⟩ | ⟨hnone, hother⟩ := hbehind
      · cases hpoint.symm.trans hpoint'
        exact hdrop.symm.trans heq
      · exact absurd (hnone.symm.trans hpoint) (hother tail)
    · next hother =>
      obtain ⟨ds, hpoint, -⟩ | ⟨hnone, -⟩ := hbehind
      · exact absurd hpoint (hother _)
      · exact hnone.symm.trans heq
  subst hexp
  rcases hexponent with h | ⟨_, sign, ds, h, he, hsign, hds⟩
  · cases h
  cases h
  -- What is behind the sign are digits, and so the text is not refused.
  rw [if_pos he, if_neg ?_]
  · rfl
  refine isDigits_iff.1 ?_
  split
  · next tail heq => exact isDigits_of_signed hsign hds heq (.inl rfl)
  · next tail heq => exact isDigits_of_signed hsign hds heq (.inr rfl)
  · next hminus hplus =>
    rcases hsign with rfl | rfl | rfl
    · exact hds
    · exact absurd rfl (hplus ds)
    · exact absurd rfl (hminus ds)

/-- Every text of the grammar denotes a number. -/
theorem isSome_parse? {s : String} (h : s.toList ∈ numeral.matches') : (parse? s).isSome = true := by
  obtain ⟨whole, fraction, exponent, hs, hwhole, hfraction, hexponent⟩ := mem_numeral.1 h
  have hunsigned := isSome_unsigned? hwhole hfraction hexponent
  obtain ⟨hne, hdigits⟩ := hwhole
  obtain ⟨c, cs, rfl⟩ := List.exists_cons_of_ne_nil hne
  have hc : isDigit c = true := hdigits c List.mem_cons_self
  unfold parse?
  rw [hs]
  simp only [List.cons_append] at hunsigned ⊢
  split
  · next heq =>
    rw [(List.cons.inj heq).1] at hc
    exact absurd hc (by decide)
  · next heq =>
    rw [(List.cons.inj heq).1] at hc
    exact absurd hc (by decide)
  · rw [Option.isSome_or, hunsigned, Bool.true_or]

end Decimal

end Persona
