import Persona.Command
import Persona.Proofs.Analysis.Located
import Persona.Proofs.Decimal.Text
import Persona.Proofs.Text.Lines

/-! Places in their source.

Whatever is reported of a source is reported at a character of it. The lines shown around the place have the character,
and a mark below it. -/
namespace Persona

namespace Command

/-- The context has a row that ends with the line, and in the row below it a `^` stands under the character at the
index, and no other. -/
def Marks (context line : String) (index : Nat) : Prop :=
  ∃ above head lower below, context = above ++ "\n" ++ (head ++ line) ++ "\n" ++ lower ++ "\n" ++ below ∧
    '\n' ∉ (head ++ line).toList ∧ '\n' ∉ lower.toList ∧
    ∀ k, lower.toList[k]? = some '^' ↔ k = head.length + index

/-! ### Rows -/

def EndsRow (s : String) : Prop := ∃ t, s = t ++ "\n"

theorem EndsRow.append_join {s : String} (hs : EndsRow s) {rows : List String} (hrows : ∀ row ∈ rows, EndsRow row) :
    EndsRow (s ++ String.join rows) := by
  induction rows generalizing s with
  | nil => simpa using hs
  | cons row rows ih =>
    obtain ⟨⟨t, ht⟩, hrest⟩ := List.forall_mem_cons.1 hrows
    rw [String.join_cons, ← String.append_assoc, ht, ← String.append_assoc]
    exact ih ⟨s ++ t, rfl⟩ hrest

/-- A text put together from parts has one of them between those before it and those behind it. -/
theorem join_of_getElem? {parts : List String} {i : Nat} {s : String} (h : parts[i]? = some s) :
    String.join parts = String.join (parts.take i) ++ s ++ String.join (parts.drop (i + 1)) := by
  obtain ⟨hi, rfl⟩ := List.getElem?_eq_some_iff.1 h
  conv_lhs => rw [← List.take_append_drop i parts, ← List.getElem_cons_drop hi]
  rw [String.join_append, String.join_cons, String.append_assoc]

theorem getElem?_concat_iff {α : Type} {l : List α} {a : α} (h : a ∉ l) (k : Nat) :
    (l ++ [a])[k]? = some a ↔ k = l.length := by
  rcases Nat.lt_trichotomy k l.length with hlt | rfl | hlt
  · rw [List.getElem?_append_left hlt]
    exact ⟨fun hk => absurd (List.mem_of_getElem? hk) h, fun hk => absurd hk (Nat.ne_of_lt hlt)⟩
  · simp
  · have hnone : (l ++ [a])[k]? = none := by
      rw [List.getElem?_eq_none_iff, List.length_append]
      exact hlt
    rw [hnone]
    exact ⟨nofun, fun hk => absurd hk (Nat.ne_of_gt hlt)⟩

/-! ### Numbers of lines -/

theorem length_toString_le {m n : Nat} (h : m ≤ n) : (toString m).length ≤ (toString n).length := by
  rw [← String.length_toList, ← String.length_toList, Decimal.toList_toString, Decimal.toList_toString,
    Nat.length_toDigits_le_iff (by decide) Nat.length_toDigits_pos]
  exact Nat.lt_of_le_of_lt h ((Nat.length_toDigits_le_iff (by decide) Nat.length_toDigits_pos).1 le_rfl)

theorem lineFeed_not_mem_toString (n : Nat) : '\n' ∉ (toString n).toList := by
  rw [Decimal.toList_toString]
  exact fun h => absurd (Decimal.isDecimalDigit_toDigits n _ h) (by decide)

theorem toList_blanks (n : Nat) : (Text.blanks n).toList = List.replicate n ' ' := String.toList_ofList

theorem length_padLeft {width : Nat} {s : String} (h : s.length ≤ width) : (Text.padLeft width s).length = width := by
  rw [Text.padLeft, String.length_append, ← String.length_toList (s := Text.blanks _), toList_blanks, List.length_replicate]
  omega

/-- The row of a line, and under it the mark if it is the line in question. -/
def contextRow (place : Coordinate) (width number : Nat) (line : String) : String :=
  let row := s!"{Text.padLeft width (toString number)} | {line}\n"
  let mark := s!"{Text.blanks width} | {Text.blanks (place.column - 1)}^\n"
  if number = place.line then row ++ mark else row

theorem endsRow_contextRow (place : Coordinate) (width number : Nat) (line : String) :
    EndsRow (contextRow place width number line) := by
  unfold contextRow
  dsimp only
  split
  · exact ⟨s!"{Text.padLeft width (toString number)} | {line}\n" ++ s!"{Text.blanks width} | {Text.blanks (place.column - 1)}^",
      by simp only [String.append_assoc]; rfl⟩
  · exact ⟨s!"{Text.padLeft width (toString number)} | {line}", by simp only [String.append_assoc]; rfl⟩

/-- The mark is under the character, for both rows have a head of the same length. -/
theorem marks_contextRow {above below line : String} {place : Coordinate} {width : Nat}
    (hwidth : (toString place.line).length ≤ width) (hline : '\n' ∉ line.toList) (habove : EndsRow above) :
    Marks (above ++ contextRow place width place.line line ++ below) line (place.column - 1) := by
  obtain ⟨above, rfl⟩ := habove
  have hnumber := lineFeed_not_mem_toString place.line
  rw [contextRow, if_pos rfl]
  generalize toString place.line = number at hwidth hnumber ⊢
  refine ⟨above, Text.padLeft width number ++ " | ", Text.blanks width ++ " | " ++ Text.blanks (place.column - 1) ++ "^", below,
    ?_, ?_, ?_, fun k => ?_⟩
  · simp only [String.append_assoc]
    rfl
  · simp [Text.padLeft, toList_blanks, hnumber, hline]
  · simp [toList_blanks]
  · have hlower : (Text.blanks width ++ " | " ++ Text.blanks (place.column - 1) ++ "^").toList =
        (List.replicate width ' ' ++ " | ".toList ++ List.replicate (place.column - 1) ' ') ++ ['^'] := by
      simp [toList_blanks]
    have hnone : '^' ∉ List.replicate width ' ' ++ " | ".toList ++ List.replicate (place.column - 1) ' ' := by simp
    rw [hlower, getElem?_concat_iff hnone]
    simp only [List.length_append, List.length_replicate, String.length_append, String.length_toList,
      length_padLeft hwidth]

/-! ### The context -/

/-- The first and the last of the lines around a place. -/
def firstShown (place : Coordinate) : Nat := max 1 (place.line - contextLines)

def lastShown (source : String) (place : Coordinate) : Nat := min (Text.lines source).length (place.line + contextLines)

def contextWidth (source : String) (place : Coordinate) : Nat := (toString (lastShown source place)).length

def contextBorder (width : Nat) : String := String.ofList (List.replicate (width + 1) '-') ++ "|--\n"

/-- The lines around a place, each in a row. -/
def contextRows (source : String) (place : Coordinate) : List String :=
  (((Text.lines source).drop (firstShown place - 1)).take (lastShown source place + 1 - firstShown place)).mapIdx
    fun i line => contextRow place (contextWidth source place) (firstShown place + i) line

theorem endsRow_contextBorder (width : Nat) : EndsRow (contextBorder width) :=
  ⟨String.ofList (List.replicate (width + 1) '-') ++ "|--", by rw [String.append_assoc]; rfl⟩

section
variable {source line : String} {place : Coordinate} {c : Char}

theorem sourceContext_eq (hpos : 1 ≤ place.line) (hle : place.line ≤ (Text.lines source).length) :
    sourceContext source place = contextBorder (contextWidth source place) ++ String.join (contextRows source place) ++
      contextBorder (contextWidth source place) := by
  unfold sourceContext
  dsimp only
  rw [if_neg (by omega)]
  rfl

/-- The line in question has its row among those shown. -/
theorem getElem?_contextRows (hpos : 1 ≤ place.line) (hline : (Text.lines source)[place.line - 1]? = some line) :
    (contextRows source place)[place.line - firstShown place]? =
      some (contextRow place (contextWidth source place) place.line line) := by
  obtain ⟨hlt, -⟩ := List.getElem?_eq_some_iff.1 hline
  have hfirst : 1 ≤ firstShown place ∧ firstShown place ≤ place.line := by
    unfold firstShown
    omega
  have hlast : place.line ≤ lastShown source place := by
    unfold lastShown
    omega
  have hindex : firstShown place - 1 + (place.line - firstShown place) = place.line - 1 := by omega
  rw [contextRows, List.getElem?_mapIdx, List.getElem?_take, if_pos (by omega), List.getElem?_drop, hindex, hline,
    Option.map_some, Nat.add_sub_cancel' hfirst.2]

/-- The context of a place in the source has a mark under the character there. -/
theorem marks_sourceContext (h : place.Denotes source line c) :
    Marks (sourceContext source place) line (place.column - 1) := by
  have hfeed : '\n' ∉ line.toList := Text.lineFeed_not_mem_lines source line (List.mem_of_getElem? h.getElem?_lines)
  have hlast : place.line ≤ lastShown source place := Nat.le_min.2 ⟨h.line_le, Nat.le_add_right ..⟩
  have hrows : ∀ row ∈ contextRows source place, EndsRow row := by
    intro row hrow
    obtain ⟨i, hi, rfl⟩ := List.mem_mapIdx.1 hrow
    exact endsRow_contextRow ..
  have habove := (endsRow_contextBorder (contextWidth source place)).append_join
    fun row hrow => hrows row (List.mem_of_mem_take (i := place.line - firstShown place) hrow)
  rw [sourceContext_eq h.line_pos h.line_le, join_of_getElem? (getElem?_contextRows h.line_pos h.getElem?_lines),
    ← String.append_assoc, ← String.append_assoc, @String.append_assoc _ (String.join _)]
  exact marks_contextRow (length_toString_le hlast) hfeed habove

theorem Marks.ne_empty {context line : String} {index : Nat} (h : Marks context line index) : context ≠ "" := by
  obtain ⟨above, head, lower, below, rfl, -⟩ := h
  intro hempty
  have hchars := congrArg String.toList hempty
  simp at hchars

end

end Command

/-- A place that is reported of a source: of an error that ends the reading or the parsing, or of something that the
analysis finds. -/
inductive Reported (source : String) (limit : Nat) : Coordinate → Prop
  | lexical {e : LexicalError} : tokenize source = .error e → Reported source limit e.position.coordinate
  | syntactic {ts : List Token} {e : SyntaxError} {place : Coordinate} : tokenize source = .ok ts →
      parse limit ts = .error e → e.place = some place → Reported source limit place
  | diagnostic {ts : List Token} {p : Program} {d : Diagnostic} : tokenize source = .ok ts → parse limit ts = .ok p →
      d ∈ (analyze p).diagnostics → Reported source limit d.place

/-- What is reported is reported at a character that is not blank. -/
theorem Reported.isAt {source : String} {limit : Nat} {place : Coordinate} (h : Reported source limit place) :
    ∃ c p, Position.IsAt source c p ∧ p.coordinate = place := by
  have htoken : ∀ ts, tokenize source = .ok ts → (∃ t ∈ ts, t.start.coordinate = place) →
      ∃ c p, Position.IsAt source c p ∧ p.coordinate = place := by
    rintro ts hts ⟨t, ht, hplace⟩
    obtain ⟨c, hc⟩ := isAt_of_tokenize hts ht
    exact ⟨c, t.start, hc, hplace⟩
  cases h with
  | lexical herror =>
    obtain ⟨c, hc⟩ := isAt_of_error herror
    exact ⟨c, _, hc, rfl⟩
  | syntactic hts herror hplace => exact htoken _ hts ((Parser.blames_of_parse herror).place place hplace)
  | diagnostic hts hparse hd => exact htoken _ hts (exists_token_of_diagnostic hparse hd)

/-- A place that is reported is that of a character of the source, and the context shown has a mark below the
character. -/
theorem marks_of_reported {source : String} {limit : Nat} {place : Coordinate} (h : Reported source limit place) :
    ∃ line c, place.Denotes source line c ∧ Command.sourceContext source place ≠ "" ∧
      Command.Marks (Command.sourceContext source place) line (place.column - 1) := by
  obtain ⟨c, p, hp, rfl⟩ := h.isAt
  obtain ⟨line, hline⟩ := hp.denotes
  have hmarks := Command.marks_sourceContext hline
  exact ⟨line, c, hline, hmarks.ne_empty, hmarks⟩

theorem marks_of_reported_return : tokenize "a\r\n 'b" = .error ⟨.unterminatedString, ⟨2, 2, 4⟩⟩ ∧
    ∃ line c, Coordinate.Denotes "a\r\n 'b" ⟨2, 2⟩ line c ∧ Command.sourceContext "a\r\n 'b" ⟨2, 2⟩ ≠ "" ∧
      Command.Marks (Command.sourceContext "a\r\n 'b" ⟨2, 2⟩) line 1 := by
  have herror : tokenize "a\r\n 'b" = .error ⟨.unterminatedString, ⟨2, 2, 4⟩⟩ := by cbv
  exact ⟨herror, marks_of_reported (.lexical herror : Reported _ 0 _)⟩

end Persona
