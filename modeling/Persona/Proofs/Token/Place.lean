import Persona.Proofs.Token.Partition
import Persona.Proofs.Token.Reading

/-! The places of tokens and of errors.

A token starts at a character of the source that is not blank, and so it is with an error that ends the reading: it has
the place of a token, of a comment or of an escape. -/
namespace Persona

open Lexer

/-- The place of a character of the source that is not blank. -/
def Position.IsAt (source : String) (c : Char) (p : Position) : Prop :=
  ∃ front rest, source.toList = front ++ c :: rest ∧ p = start.advanceAll front ∧ Text.isBlank c = false

/-! ### Where gaps and lexemes end -/

namespace Lexer

/-- Behind a gap stands no blank. -/
theorem not_blank_of_gap {mode : Gap} {n stop : Nat} {cs : List Char} (h : gap mode n cs = (stop, none)) :
    ∃ k, stop = n + k ∧ ∀ c ∈ (cs.drop k).head?, Text.isBlank c = false := by
  fun_induction gap mode n cs with
  | case1 | case6 =>
    cases h
    exact ⟨0, rfl, fun c hc => by cases hc⟩
  | case5 n c cs _ _ hblank =>
    cases h
    refine ⟨0, rfl, ?_⟩
    rintro _ ⟨⟩
    exact Bool.eq_false_iff.2 hblank
  | case8 => cases h
  | case2 n cs ih | case3 n cs ih | case9 _ n cs ih =>
    obtain ⟨k, rfl, hk⟩ := ih h
    exact ⟨k + 2, by omega, hk⟩
  | case4 n c cs _ _ _ ih | case7 n c cs ih | case10 _ n c cs _ ih =>
    obtain ⟨k, rfl, hk⟩ := ih h
    exact ⟨k + 1, by omega, hk⟩

/-- A comment that is not closed begins with a slash, in front of the gap's rest or where the reader is. -/
theorem slash_of_gap {mode : Gap} {n stop opened : Nat} {cs : List Char} (h : gap mode n cs = (stop, some opened)) :
    mode = .block opened ∨ ∃ k, opened = n + k ∧ (cs.drop k).head? = some '/' := by
  fun_induction gap mode n cs with
  | case1 | case5 | case6 => cases h
  | case8 =>
    cases h
    exact .inl rfl
  | case2 n cs ih | case9 _ n cs ih =>
    rcases ih h with hmode | ⟨k, rfl, hk⟩
    · cases hmode
    · exact .inr ⟨k + 2, by omega, hk⟩
  | case3 n cs ih =>
    rcases ih h with hmode | ⟨k, rfl, hk⟩
    · cases hmode
      exact .inr ⟨0, rfl, rfl⟩
    · exact .inr ⟨k + 2, by omega, hk⟩
  | case4 n c cs _ _ _ ih =>
    rcases ih h with hmode | ⟨k, rfl, hk⟩
    · cases hmode
    · exact .inr ⟨k + 1, by omega, hk⟩
  | case7 n c cs ih =>
    rcases ih h with hmode | ⟨k, rfl, hk⟩
    · split at hmode <;> cases hmode
    · exact .inr ⟨k + 1, by omega, hk⟩
  | case10 _ n c cs _ ih =>
    rcases ih h with hmode | ⟨k, rfl, hk⟩
    · exact .inl hmode
    · exact .inr ⟨k + 1, by omega, hk⟩

/-- A literal goes wrong where it began or at a backslash. -/
theorem backslash_of_munchString {delimiter : Char} {taken back : Nat} {text cs : List Char} {fault : LexicalFault}
    (h : (munchString delimiter taken text cs).result = .error (fault, back)) :
    back = 0 ∨ ∃ k, back = taken + k ∧ (cs.drop k).head? = some '\\' := by
  fun_induction munchString delimiter taken text cs with
  | case1 | case3 =>
    cases h
    exact .inl rfl
  | case2 => cases h
  | case4 taken text d cs _ _ _ ih =>
    rcases ih h with hback | ⟨k, rfl, hk⟩
    · exact .inl hback
    · exact .inr ⟨k + 2, by omega, hk⟩
  | case5 =>
    cases h
    exact .inr ⟨0, rfl, rfl⟩
  | case6 taken text c cs _ _ ih =>
    rcases ih h with hback | ⟨k, rfl, hk⟩
    · exact .inl hback
    · exact .inr ⟨k + 1, by omega, hk⟩

/-- A lexeme goes wrong where it began or at a backslash inside it. -/
theorem backslash_of_munch {c : Char} {cs : List Char} {fault : LexicalFault} {back : Nat}
    (h : (munch c cs).result = .error (fault, back)) : back = 0 ∨ ((c :: cs).drop back).head? = some '\\' := by
  unfold munch at h
  split at h
  · rcases backslash_of_munchString h with hback | ⟨k, rfl, hk⟩
    · exact .inl hback
    · rw [Nat.add_comm, List.drop_succ_cons]
      exact .inr hk
  split at h
  · simp only [munchNumber] at h
    split at h
    · cases h
      exact .inl rfl
    · split at h
      · cases h
      · cases h
        exact .inl rfl
  split at h
  · cases h
  split at h
  · cases h
  · cases h
    exact .inl rfl

end Lexer

/-! ### Places of tokens and errors -/

namespace Cursor

variable {cur after : Cursor} {t : Token} {e : LexicalError} {source : String}

theorem StandsIn.isAt {c : Char} {cs : List Char} (h : cur.StandsIn source) (hrest : cur.rest = c :: cs)
    (hblank : Text.isBlank c = false) : cur.position.IsAt source c := by
  obtain ⟨front, hsource, hplace⟩ := h
  exact ⟨front, cs, hrest ▸ hsource, hplace, hblank⟩

theorem skip_rest_of_head? {n : Nat} {c : Char} (h : (cur.rest.drop n).head? = some c) :
    ∃ cs, (cur.skip n).rest = c :: cs := List.head?_eq_some_iff.1 h

/-- A token starts at a character that is not blank. -/
theorem isAt_start (h : cur.next = (.token t, after)) (hcur : cur.StandsIn source) : ∃ c, t.start.IsAt source c := by
  obtain ⟨n, c, cs, l, hgap, hrest, -, rfl, -⟩ := exists_munch h
  obtain ⟨k, rfl, hblank⟩ := not_blank_of_gap hgap
  rw [Nat.zero_add] at hrest ⊢
  have hhead : (cur.rest.drop k).head? = some c := congrArg List.head? hrest
  exact ⟨c, (hcur.skip k).isAt hrest (hblank c hhead)⟩

/-- Reading ends with an error at a character that is not blank. -/
theorem isAt_error (h : cur.next = (.error e, after)) (hcur : cur.StandsIn source) : ∃ c, e.position.IsAt source c := by
  unfold next at h
  split at h
  · next n opened hgap =>
    cases h
    rcases slash_of_gap hgap with hmode | ⟨k, rfl, hk⟩
    · cases hmode
    · obtain ⟨cs, hrest⟩ := skip_rest_of_head? hk
      rw [Nat.zero_add]
      exact ⟨'/', (hcur.skip k).isAt hrest (by decide)⟩
  next n hgap =>
  unfold token at h
  split at h
  · cases h
  next c cs hrest =>
  dsimp only at h
  split at h
  · cases h
  next fault back hmunch =>
  cases h
  rcases backslash_of_munch hmunch with rfl | hback
  · obtain ⟨k, rfl, hblank⟩ := not_blank_of_gap hgap
    rw [Nat.zero_add] at hrest ⊢
    have hhead : (cur.rest.drop k).head? = some c := congrArg List.head? hrest
    have hzero : ((cur.skip k).skip 0).rest = c :: cs := hrest
    exact ⟨c, ((hcur.skip k).skip 0).isAt hzero (hblank c hhead)⟩
  · rw [← hrest] at hback
    obtain ⟨cs', hrest'⟩ := skip_rest_of_head? hback
    exact ⟨'\\', ((hcur.skip n).skip back).isAt hrest' (by decide)⟩

end Cursor

/-- The tokens of a source start at characters of it that are not blank. -/
theorem isAt_of_tokenize {source : String} {ts : List Token} {t : Token} (h : tokenize source = .ok ts) (ht : t ∈ ts) :
    ∃ c, t.start.IsAt source c := by
  obtain ⟨us, cur, after, hus, hnext⟩ := Cursor.exists_next_of_tokenize h ht
  exact Cursor.isAt_start hnext (hus.standsIn (Cursor.standsIn_ofString source))

/-- A source that cannot be read has its error at a character that is not blank. -/
theorem isAt_of_error {source : String} {e : LexicalError} (h : tokenize source = .error e) :
    ∃ c, e.position.IsAt source c := by
  obtain ⟨us, last, after, hus, hnext⟩ := Cursor.reads_of_error h
  exact Cursor.isAt_error hnext (hus.standsIn (Cursor.standsIn_ofString source))

end Persona
