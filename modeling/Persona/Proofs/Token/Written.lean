import Persona.Proofs.Token.Munch
import Persona.Proofs.Token.Reading

/-! What the lexer gives.

Names are words that are no keywords, and numbers begin with a digit. -/
namespace Persona

open Lexer

/-- A lexeme as it can be read. -/
def Lexeme.IsWritten : Lexeme → Prop
  | .name s => IsName s
  | .number s => ∃ c cs, s.toList = c :: cs ∧ isDigit c = true
  | _ => True

namespace Lexer

theorem written_munchString {delimiter : Char} {taken : Nat} {text cs : List Char} {l : Lexeme}
    (h : (munchString delimiter taken text cs).result = .ok l) : l.IsWritten := by
  fun_induction munchString delimiter taken text cs with
  | case2 =>
    cases h
    trivial
  | case4 _ _ _ _ _ _ _ ih => exact ih h
  | case6 _ _ _ _ _ _ ih => exact ih h
  | _ => cases h

theorem written_munchNumber {c : Char} {cs : List Char} {l : Lexeme} (hc : isDigit c = true)
    (h : (munchNumber (c :: cs)).result = .ok l) : l.IsWritten := by
  have hrun : ∃ ds, numberRun (c :: cs) = c :: ds := by
    simp only [numberRun, digitRun, List.takeWhile_cons_of_pos hc, List.cons_append]
    exact ⟨_, rfl⟩
  obtain ⟨ds, hds⟩ := hrun
  simp only [munchNumber] at h
  split at h
  · cases h
  · split at h
    · cases h
      exact ⟨c, ds, by rw [String.toList_ofList, hds], hc⟩
    · cases h

theorem written_munchWord {c : Char} {cs : List Char} {l : Lexeme} (hc : isNameStart c = true)
    (h : (munchWord (c :: cs)).result = .ok l) : l.IsWritten := by
  have hpart : isNamePart c = true := by rw [isNamePart, hc, Bool.true_or]
  simp only [munchWord] at h
  cases hk : Keyword.ofText? (String.ofList ((c :: cs).takeWhile isNamePart)) with
  | some k =>
    rw [hk] at h
    cases h
    trivial
  | none =>
    rw [hk] at h
    cases h
    refine ⟨⟨c, cs.takeWhile isNamePart, ?_, hc, List.all_eq_true.1 List.all_takeWhile⟩, hk⟩
    rw [String.toList_ofList, List.takeWhile_cons_of_pos hpart]

theorem written_munch {c : Char} {cs : List Char} {l : Lexeme} (h : (munch c cs).result = .ok l) : l.IsWritten := by
  unfold munch at h
  split at h
  · exact written_munchString h
  split at h
  · next hdigit => exact written_munchNumber hdigit h
  split at h
  · next hstart => exact written_munchWord hstart h
  split at h
  · cases h
    trivial
  · cases h

end Lexer

/-- All tokens of a source say lexemes that can be read. -/
theorem written_of_tokenize {source : String} {ts : List Token} (h : tokenize source = .ok ts) :
    ∀ t ∈ ts, t.lexeme.IsWritten := by
  intro t ht
  obtain ⟨-, cur, after, -, hnext⟩ := Cursor.exists_next_of_tokenize h ht
  obtain ⟨n, c, cs, l, -, -, hmunch, rfl, -⟩ := Cursor.exists_munch hnext
  exact written_munch hmunch

end Persona
