import Persona.Proofs.Token.Place
import Persona.Text.Lines

/-! Places in the lines of a text.

A text is cut at its line feeds in two ways: places count them, and lines are what stands between them. A carriage
return before a line feed has a place and is in no line, but it is blank. So where a character that is not blank has a
place, the lines have the character. -/
namespace Persona

namespace Text

variable {l cs ended line : List Char} {c : Char}

/-- The lines of a text, as lists of characters. -/
def charLines (cs : List Char) : List (List Char) :=
  (endedLines cs).1.map dropReturn ++ if (endedLines cs).2.isEmpty then [] else [(endedLines cs).2]

theorem lines_eq (s : String) : lines s = (charLines s.toList).map String.ofList := rfl

/-! ### Line by line -/

/-- A text stands on one line, or it has a first line and a text below it. -/
theorem line_induction {P : List Char → Prop} (last : ∀ l, '\n' ∉ l → P l)
    (more : ∀ l cs, '\n' ∉ l → P cs → P (l ++ '\n' :: cs)) (cs : List Char) : P cs := by
  induction hlength : cs.length using Nat.strongRecOn generalizing cs with
  | ind n ih =>
    by_cases hfeed : '\n' ∈ cs
    · obtain ⟨l, rest, rfl, hl⟩ := List.eq_append_cons_of_mem hfeed
      refine more l rest hl (ih rest.length ?_ rest rfl)
      rw [← hlength, List.length_append, List.length_cons]
      omega
    · exact last cs hfeed

theorem go_of_line {ended : List (List Char)} (hl : '\n' ∉ l) (cs : List Char) :
    endedLines.go ended line (l ++ cs) = endedLines.go ended (l.reverse ++ line) cs := by
  induction l generalizing line with
  | nil => rfl
  | cons c l ih =>
    obtain ⟨hc, hl⟩ := not_or.1 (mt List.mem_cons.2 hl)
    rw [List.cons_append, endedLines.go, if_neg (Ne.symm hc), ih hl, List.reverse_cons, List.append_assoc,
      List.singleton_append]

theorem go_eq (ended : List (List Char)) (line cs : List Char) :
    endedLines.go ended line cs = (ended.reverse ++ (endedLines.go [] line cs).1, (endedLines.go [] line cs).2) := by
  induction cs generalizing ended line with
  | nil => simp [endedLines.go]
  | cons c cs ih =>
    rw [endedLines.go, endedLines.go]
    split
    · rw [ih (line.reverse :: ended), ih [line.reverse]]
      simp
    · exact ih ended (c :: line)

theorem charLines_of_line (hl : '\n' ∉ l) (hne : l ≠ []) : charLines l = [l] := by
  have hgo := @go_of_line l [] [] hl []
  rw [List.append_nil, List.append_nil] at hgo
  have hended : endedLines l = ([], l) := by
    rw [endedLines, hgo, endedLines.go, List.reverse_reverse, List.reverse_nil]
  rw [charLines, hended]
  simp [hne]

theorem charLines_append (hl : '\n' ∉ l) (cs : List Char) : charLines (l ++ '\n' :: cs) = dropReturn l :: charLines cs := by
  have hended : endedLines (l ++ '\n' :: cs) = (l :: (endedLines cs).1, (endedLines cs).2) := by
    rw [endedLines, go_of_line hl, List.append_nil, endedLines.go, if_pos rfl, List.reverse_reverse, go_eq]
    rfl
  rw [charLines, hended]
  rfl

/-- Lines have no line feeds. -/
theorem lineFeed_not_mem_charLines (cs : List Char) : ∀ l ∈ charLines cs, '\n' ∉ l := by
  induction cs using line_induction with
  | last l hl =>
    rcases eq_or_ne l [] with rfl | hne
    · nofun
    · rw [charLines_of_line hl hne]
      exact List.forall_mem_singleton.2 hl
  | more l cs hl ih =>
    rw [charLines_append hl]
    refine List.forall_mem_cons.2 ⟨fun hfeed => hl ?_, ih⟩
    unfold dropReturn at hfeed
    split at hfeed
    · exact List.mem_of_mem_dropLast hfeed
    · exact hfeed

theorem lineFeed_not_mem_lines (s : String) : ∀ line ∈ lines s, '\n' ∉ line.toList := by
  intro line hline
  obtain ⟨l, hl, rfl⟩ := List.mem_map.1 (lines_eq s ▸ hline)
  rw [String.toList_ofList]
  exact lineFeed_not_mem_charLines _ l hl

/-! ### The character at a place -/

/-- Only a carriage return is lost at the end of a line. -/
theorem getElem?_dropReturn {i : Nat} (hi : l[i]? = some c) (hc : c ≠ '\r') : (dropReturn l)[i]? = some c := by
  unfold dropReturn
  split
  · next hlast =>
    obtain ⟨hlt, -⟩ := List.getElem?_eq_some_iff.1 hi
    rw [List.getElem?_dropLast, if_pos ?_, hi]
    refine Nat.lt_of_le_of_ne (Nat.le_sub_one_of_lt hlt) fun heq => hc ?_
    rw [List.getLast?_eq_getElem?, ← heq, hi] at hlast
    exact Option.some.inj hlast
  · exact hi

/-- A character that is not blank is in the line that its place tells, as far along as its place tells. -/
theorem exists_charLine (hc : isBlank c = false) (front rest : List Char) (first offset : Nat) :
    ∃ i j o l, Position.advanceAll ⟨first, 1, offset⟩ front = ⟨first + i, j + 1, o⟩ ∧
      (charLines (front ++ c :: rest))[i]? = some l ∧ l[j]? = some c := by
  have hfeed : '\n' ≠ c := by
    rintro rfl
    exact absurd hc (by decide)
  have hreturn : c ≠ '\r' := by
    rintro rfl
    exact absurd hc (by decide)
  induction front using line_induction generalizing first offset with
  | last l hl =>
    have hchar : ∀ r, (l ++ c :: r)[l.length]? = some c := fun r => by simp
    have hshort : ∀ r, '\n' ∉ r → '\n' ∉ l ++ c :: r := fun r hr => by simp [hl, hr, hfeed]
    rw [Position.advanceAll_of_line hl, Nat.add_comm 1]
    induction rest using line_induction with
    | last r hr =>
      rw [charLines_of_line (hshort r hr) (by simp)]
      exact ⟨0, l.length, _, _, rfl, rfl, hchar r⟩
    | more r cs hr =>
      rw [← List.cons_append, ← List.append_assoc, charLines_append (hshort r hr)]
      exact ⟨0, l.length, _, _, rfl, rfl, getElem?_dropReturn (hchar r) hreturn⟩
  | more l cs hl ih =>
    rw [Position.advanceAll_append, Position.advanceAll_of_line hl, Position.advanceAll_cons, Position.advance, if_pos rfl]
    obtain ⟨i, j, o, line, hplace, hline, hchar⟩ := ih (first + 1) (offset + (String.ofList l).utf8ByteSize + '\n'.utf8Size)
    refine ⟨i + 1, j, o, line, ?_, ?_, hchar⟩
    · rw [hplace, Nat.add_assoc, Nat.add_comm 1]
    · rw [List.append_assoc, List.cons_append, charLines_append hl]
      exact hline

end Text

/-- A place that is on a line of the source, at a character of the line. -/
structure Coordinate.Denotes (source : String) (place : Coordinate) (line : String) (c : Char) : Prop where
  line_pos : 1 ≤ place.line
  line_le : place.line ≤ (Text.lines source).length
  getElem?_lines : (Text.lines source)[place.line - 1]? = some line
  column_pos : 1 ≤ place.column
  column_le : place.column ≤ line.length
  getElem?_line : line.toList[place.column - 1]? = some c

/-- Characters that are not blank are where their places say. -/
theorem Position.IsAt.denotes {source : String} {c : Char} {p : Position} (h : p.IsAt source c) :
    ∃ line, p.coordinate.Denotes source line c := by
  obtain ⟨front, rest, hsource, rfl, hc⟩ := h
  obtain ⟨i, j, o, l, hplace, hline, hchar⟩ := Text.exists_charLine hc front rest 1 0
  have hstart : start.advanceAll front = ⟨1 + i, j + 1, o⟩ := hplace
  have hlines : (Text.lines source)[i]? = some (String.ofList l) := by
    rw [Text.lines_eq, hsource, List.getElem?_map, hline]
    rfl
  obtain ⟨hi, -⟩ := List.getElem?_eq_some_iff.1 hlines
  obtain ⟨hj, -⟩ := List.getElem?_eq_some_iff.1 hchar
  rw [hstart]
  refine ⟨String.ofList l, ?_⟩
  constructor
  · exact Nat.le_add_right 1 i
  · show 1 + i ≤ _
    omega
  · show (Text.lines source)[1 + i - 1]? = _
    rwa [Nat.add_sub_cancel_left]
  · exact Nat.le_add_left 1 j
  · show j + 1 ≤ _
    rw [String.length_ofList]
    exact hj
  · show (String.ofList l).toList[j + 1 - 1]? = _
    rwa [Nat.add_sub_cancel, String.toList_ofList]

end Persona
