import Persona.Proofs.Token.Scanning

/-! Which lexeme is taken.

A mark, a word, a string or a number is taken whole where nothing follows that goes on with it:
no part of a longer mark, and no letter, digit or point. -/
namespace Persona.Lexer

/-- Nothing follows that goes on with a word or a number. -/
def Parted (rest : List Char) : Prop := ∀ c ∈ rest.head?, isGlued c = false

/-- Nothing follows that goes on with a mark. -/
def Clear (rest : List Char) : Prop := ∀ c ∈ rest.head?, c ≠ '=' ∧ c ≠ '>' ∧ c ≠ '*' ∧ c ≠ '/'

variable {rest : List Char}

/-! ### Marks -/

/-- No other lexeme than a mark can begin so. -/
def beginsMark (c : Char) : Bool :=
  !Text.isBlank c && c != '"' && c != '\'' && !isDigit c && !isNameStart c

/-- A mark that can stand alone does so. -/
theorem markAt_of_clear {c : Char} {m : Mark} (hrest : Clear rest) (hm : markAt c none = some (m, 1)) :
    markAt c rest.head? = some (m, 1) := by
  cases hd : rest.head? with
  | none => exact hm
  | some d =>
    obtain ⟨h1, h2, h3, h4⟩ := hrest d hd
    unfold markAt at hm
    split at hm <;> simp_all [markAt]

theorem takes_of_markAt {m : Mark} {c : Char} {cs : List Char} (htext : m.text.toList = c :: cs)
    (hbegins : beginsMark c = true) (hslash : c = '/' → (cs ++ rest).head? ≠ some '/' ∧ (cs ++ rest).head? ≠ some '*')
    (hmark : markAt c (cs ++ rest).head? = some (m, (c :: cs).length)) : Takes m.text.toList rest (.mark m) := by
  simp only [beginsMark, Bool.and_eq_true, Bool.not_eq_true', bne_iff_ne] at hbegins
  obtain ⟨⟨⟨⟨hblank, hdouble⟩, hsingle⟩, hdigit⟩, hname⟩ := hbegins
  rw [htext]
  refine ⟨gap_stop hblank hslash, c, cs, rfl, ?_⟩
  rw [munch, if_neg (not_or.2 ⟨hdouble, hsingle⟩), hdigit, hname, hmark]
  rfl

theorem takes_mark (m : Mark) (hrest : Clear rest) : Takes m.text.toList rest (.mark m) := by
  have hclear : rest.head? ≠ some '/' ∧ rest.head? ≠ some '*' :=
    ⟨fun h => (hrest _ h).2.2.2 rfl, fun h => (hrest _ h).2.2.1 rfl⟩
  cases m with
  | equalEqual | bangEqual | greaterEqual | lessEqual | starStar | ampAmp | pipePipe | arrow =>
    exact takes_of_markAt rfl rfl (fun h => absurd h (by decide)) rfl
  | _ => exact @takes_of_markAt _ _ _ [] rfl rfl (fun _ => hclear) (markAt_of_clear hrest rfl)

/-- Marks that no character goes on with. -/
def isPunctuation : Mark → Bool
  | .colon | .comma | .semicolon | .leftParen | .rightParen | .leftBrace | .rightBrace | .leftBracket
  | .rightBracket => true
  | _ => false

theorem takes_punctuation {m : Mark} (hm : isPunctuation m = true) (rest : List Char) :
    Takes m.text.toList rest (.mark m) := by
  cases m with
  | colon | comma | semicolon | leftParen | rightParen | leftBrace | rightBrace | leftBracket | rightBracket =>
    exact @takes_of_markAt _ _ _ [] rfl rfl (fun h => absurd h (by decide)) rfl
  | _ => cases hm

/-! ### Words -/

/-- A letter and then letters and digits. -/
def IsWord (s : String) : Prop := ∃ c cs, s.toList = c :: cs ∧ isNameStart c = true ∧ ∀ d ∈ cs, isNamePart d = true

/-- What starts a name is neither a digit nor a quote nor a blank. -/
theorem of_isNameStart {c : Char} (h : isNameStart c = true) :
    Text.isBlank c = false ∧ c ≠ '"' ∧ c ≠ '\'' ∧ c ≠ '/' ∧ isDigit c = false := by
  have hrange : 65 ≤ c.toNat ∧ c.toNat ≤ 122 := by
    simp only [isNameStart, Bool.or_eq_true, Bool.and_eq_true, decide_eq_true_eq, beq_iff_eq, Char.le_def,
      UInt32.le_iff_toNat_le] at h
    have hval : c.val.toNat = c.toNat := rfl
    rcases h with (⟨h1, h2⟩ | ⟨h1, h2⟩) | rfl
    · exact ⟨Nat.le_trans (by decide) h1, h2⟩
    · exact ⟨h1, Nat.le_trans h2 (by decide)⟩
    · decide
  have hne : ∀ d : Char, d.toNat < 65 → c ≠ d := by
    rintro d hd rfl
    omega
  refine ⟨?_, hne _ (by decide), hne _ (by decide), hne _ (by decide), ?_⟩
  · simp only [Text.isBlank, Text.blankRanges, List.any_cons, List.any_nil, Bool.or_false, Bool.or_eq_false_iff,
      Bool.and_eq_false_iff, decide_eq_false_iff_not]
    omega
  · simp only [isDigit, Bool.and_eq_false_iff, decide_eq_false_iff_not, Char.le_def, UInt32.le_iff_toNat_le]
    refine .inr fun h => ?_
    have : c.toNat ≤ 57 := h
    omega

theorem munchWord_append {cs : List Char} (hcs : ∀ c ∈ cs, isNamePart c = true) (hrest : Parted rest) :
    munchWord (cs ++ rest) =
      ⟨.ok (match Keyword.ofText? (String.ofList cs) with | some k => .keyword k | none => .name (String.ofList cs)),
        cs.length⟩ := by
  have hstop : rest.takeWhile isNamePart = [] := by
    cases rest with
    | nil => rfl
    | cons d rest =>
      have hd := (Bool.or_eq_false_iff.1 (hrest d rfl)).1
      rw [List.takeWhile_cons_of_neg (by rw [hd]; exact Bool.false_ne_true)]
  have hrun : (cs ++ rest).takeWhile isNamePart = cs := by
    rw [List.takeWhile_append_of_pos hcs, hstop, List.append_nil]
  unfold munchWord
  generalize (cs ++ rest).takeWhile isNamePart = run at hrun ⊢
  cases hrun
  rfl

theorem takes_word {s : String} (hs : IsWord s) (hrest : Parted rest) {l : Lexeme}
    (hl : (match Keyword.ofText? s with | some k => Lexeme.keyword k | none => .name s) = l) :
    Takes s.toList rest l := by
  obtain ⟨c, cs, htext, hstart, hparts⟩ := hs
  obtain ⟨hblank, hdouble, hsingle, hslash, hdigit⟩ := of_isNameStart hstart
  have hall : ∀ d ∈ c :: cs, isNamePart d = true :=
    List.forall_mem_cons.2 ⟨by rw [isNamePart, hstart, Bool.true_or], hparts⟩
  rw [htext]
  refine ⟨gap_stop hblank fun h => absurd h hslash, c, cs, rfl, ?_⟩
  rw [munch, if_neg (not_or.2 ⟨hdouble, hsingle⟩), hdigit, hstart, if_neg Bool.false_ne_true, if_pos rfl,
    ← List.cons_append, munchWord_append hall hrest, ← htext, String.ofList_toList, ← hl]

theorem isWord_text (k : Keyword) : IsWord k.text := by
  cases k <;> exact ⟨_, _, rfl, by decide, List.all_eq_true.1 (by decide)⟩

theorem takes_keyword (k : Keyword) (hrest : Parted rest) : Takes k.text.toList rest (.keyword k) :=
  takes_word (isWord_text k) hrest (by rw [Keyword.ofText?_text])

/-- A word that is not a keyword. -/
def IsName (s : String) : Prop := IsWord s ∧ Keyword.ofText? s = none

theorem takes_name {s : String} (hs : IsName s) (hrest : Parted rest) : Takes s.toList rest (.name s) :=
  takes_word hs.1 hrest (by rw [hs.2])

/-! ### Strings -/

theorem escape_cases (c : Char) :
    (∃ d, Text.escape c = ['\\', d] ∧ Text.unescape? d = some c) ∨ Text.escape c = [c] ∧ c ≠ '"' ∧ c ≠ '\\' := by
  by_cases hescaped : ∃ d, Text.escape c = ['\\', d]
  · obtain ⟨d, hd⟩ := hescaped
    exact .inl ⟨d, hd, Text.unescape?_escape hd⟩
  · right
    unfold Text.escape at hescaped ⊢
    grind

theorem munchString_append (cs : List Char) (taken : Nat) (text : List Char) :
    munchString '"' taken text (cs.flatMap Text.escape ++ '"' :: rest) =
      ⟨.ok (.string (String.ofList (text.reverse ++ cs))), taken + (cs.flatMap Text.escape).length + 1⟩ := by
  induction cs generalizing taken text with
  | nil =>
    unfold munchString
    simp
  | cons c cs ih =>
    have htext : (c :: text).reverse ++ cs = text.reverse ++ c :: cs := by
      rw [List.reverse_cons, List.append_assoc, List.singleton_append]
    rw [List.flatMap_cons, List.append_assoc, List.length_append]
    rcases escape_cases c with ⟨d, hescape, hd⟩ | ⟨hescape, hquote, hslash⟩
    · rw [hescape]
      simp only [List.cons_append, List.nil_append, munchString, if_true, hd]
      rw [if_neg (by decide), ih, htext]
      simp only [List.length_cons, List.length_nil]
      congr 1
      omega
    · rw [hescape, List.singleton_append, munchString.eq_def]
      simp only [if_neg hquote, if_neg hslash]
      rw [ih, htext, List.length_singleton]
      congr 1
      omega

theorem toList_quote (s : String) : (Text.quote s).toList = '"' :: (s.toList.flatMap Text.escape ++ ['"']) := by
  rw [Text.quote, String.toList_ofList]
  rfl

theorem takes_string (s : String) (rest : List Char) : Takes (Text.quote s).toList rest (.string s) := by
  rw [toList_quote]
  refine ⟨gap_stop (by decide) (fun h => absurd h (by decide)), _, _, rfl, ?_⟩
  rw [munch, if_pos (.inl rfl), List.append_assoc, List.singleton_append, munchString_append, List.reverse_nil,
    List.nil_append, String.ofList_toList]
  simp only [List.length_cons, List.length_append, List.length_nil]
  congr 1
  omega

/-! ### Numbers -/

/-- Digits, and perhaps a point and digits behind it. -/
def IsNumber (s : String) : Prop := ∃ whole fraction, s.toList = whole ++ fraction ∧
  (whole ≠ [] ∧ ∀ c ∈ whole, isDigit c = true) ∧
    (fraction = [] ∨ ∃ ds, fraction = '.' :: ds ∧ ds ≠ [] ∧ ∀ c ∈ ds, isDigit c = true)

theorem of_isDigit {c : Char} (h : isDigit c = true) :
    Text.isBlank c = false ∧ c ≠ '"' ∧ c ≠ '\'' ∧ c ≠ '/' := by
  obtain ⟨hlow, hhigh⟩ : 48 ≤ c.toNat ∧ c.toNat ≤ 57 := by
    simp only [isDigit, Bool.and_eq_true, decide_eq_true_eq, Char.le_def, UInt32.le_iff_toNat_le] at h
    exact h
  have hne : ∀ d : Char, d.toNat < 48 → c ≠ d := by
    rintro d hd rfl
    omega
  refine ⟨?_, hne _ (by decide), hne _ (by decide), hne _ (by decide)⟩
  simp only [Text.isBlank, Text.blankRanges, List.any_cons, List.any_nil, Bool.or_false, Bool.or_eq_false_iff,
    Bool.and_eq_false_iff, decide_eq_false_iff_not]
  omega

theorem digitRun_append {ds : List Char} (hds : ∀ c ∈ ds, isDigit c = true)
    (hrest : ∀ c ∈ rest.head?, isDigit c = false) : digitRun (ds ++ rest) = ds := by
  have hstop : rest.takeWhile isDigit = [] := by
    cases rest with
    | nil => rfl
    | cons d rest => rw [List.takeWhile_cons_of_neg (by rw [hrest d rfl]; exact Bool.false_ne_true)]
  rw [digitRun, List.takeWhile_append_of_pos hds, hstop, List.append_nil]

theorem exponentRun_of_parted (hrest : Parted rest) : exponentRun rest = [] := by
  cases rest with
  | nil => rfl
  | cons e rest =>
    have he : ¬(e = 'e' ∨ e = 'E') := by
      rintro (rfl | rfl)
      · exact absurd (hrest _ rfl) (by decide)
      · exact absurd (hrest _ rfl) (by decide)
    unfold exponentRun
    exact if_neg he

theorem takes_number {s : String} (hs : IsNumber s) (hrest : Parted rest) : Takes s.toList rest (.number s) := by
  obtain ⟨whole, fraction, htext, ⟨hne, hwhole⟩, hpoint⟩ := hs
  have hend : ∀ c ∈ rest.head?, isDigit c = false ∧ c ≠ '.' := by
    intro c hc
    obtain ⟨hpart, hdot⟩ := Bool.or_eq_false_iff.1 (hrest c hc)
    exact ⟨(Bool.or_eq_false_iff.1 hpart).2, ne_of_beq_false hdot⟩
  have hfraction : ∀ d ∈ (fraction ++ rest).head?, isDigit d = false := by
    rcases hpoint with rfl | ⟨ds, rfl, -, -⟩
    · exact fun d hd => (hend d hd).1
    · rintro d ⟨⟩
      rfl
  have hrun : fractionRun (fraction ++ rest) = fraction := by
    rcases hpoint with rfl | ⟨ds, rfl, hds, hdigits⟩
    · rw [List.nil_append]
      unfold fractionRun
      split
      · exact absurd rfl (hend _ rfl).2
      · rfl
    · obtain ⟨d, ds, rfl⟩ := List.exists_cons_of_ne_nil hds
      have hrun := digitRun_append hdigits fun c hc => (hend c hc).1
      rw [List.cons_append, fractionRun, hrun]
  have hwholes : digitRun (whole ++ (fraction ++ rest)) = whole := digitRun_append hwhole hfraction
  have hnumber : numberRun (whole ++ (fraction ++ rest)) = whole ++ fraction := by
    simp only [numberRun, hwholes, List.drop_left, hrun]
    rw [← List.append_assoc, List.drop_left, exponentRun_of_parted hrest, List.append_nil]
  have hglued : rest.takeWhile isGlued = [] := by
    cases rest with
    | nil => rfl
    | cons d rest => rw [List.takeWhile_cons_of_neg (by rw [hrest d rfl]; exact Bool.false_ne_true)]
  have hmunch : munchNumber (whole ++ (fraction ++ rest)) = ⟨.ok (.number s), s.toList.length⟩ := by
    have hdrop : (whole ++ (fraction ++ rest)).drop (whole ++ fraction).length = rest := by
      rw [← List.append_assoc, List.drop_left]
    unfold munchNumber
    simp only [hwholes, List.drop_left, hrun, hnumber, hdrop, hglued]
    rw [htext, ← htext, String.ofList_toList]
    split
    · next hempty =>
      subst hempty
      exact absurd rfl (hend '.' rfl).2
    · rfl
  obtain ⟨c, cs, rfl⟩ := List.exists_cons_of_ne_nil hne
  obtain ⟨hblank, hdouble, hsingle, hslash⟩ := of_isDigit (hwhole c List.mem_cons_self)
  rw [htext] at hmunch ⊢
  refine ⟨gap_stop hblank fun h => absurd h hslash, c, cs ++ fraction, rfl, ?_⟩
  rw [munch, if_neg (not_or.2 ⟨hdouble, hsingle⟩), if_pos (hwhole c List.mem_cons_self), List.append_assoc]
  exact hmunch

end Persona.Lexer
