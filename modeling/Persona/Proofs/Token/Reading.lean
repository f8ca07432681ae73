import Persona.Proofs.Token.Scanning

/-! The way through a source.

Tokens are read one after the other, each by a cursor that stands in the source: its place is counted from the
characters before it. The way ends at the end of the source or with an error. -/
namespace Persona

namespace Cursor

/-- Reading these tokens leads from one cursor to the other. -/
inductive Reads : Cursor → List Token → Cursor → Prop
  | done (cur : Cursor) : Reads cur [] cur
  | more {cur after last : Cursor} {t : Token} {ts : List Token} : cur.next = (.token t, after) → Reads after ts last →
      Reads cur (t :: ts) last

/-- What is left is an end of the source, and the place is counted from the characters before it. -/
def StandsIn (source : String) (cur : Cursor) : Prop :=
  ∃ front, source.toList = front ++ cur.rest ∧ cur.position = Position.start.advanceAll front

variable {cur mid after last : Cursor} {t : Token} {ts us : List Token} {e : LexicalError} {source : String}

namespace Reads

theorem append (h : Reads cur ts mid) (h' : Reads mid us last) : Reads cur (ts ++ us) last := by
  induction h with
  | done => exact h'
  | more hnext _ ih => exact .more hnext (ih h')

theorem one (h : cur.next = (.token t, after)) : Reads cur [t] after := .more h (.done after)

theorem tokens_eq (h : Reads cur ts last) (before : Array Token) :
    cur.tokens before = last.tokens (before ++ ts.toArray) := by
  induction h generalizing before with
  | done => simp
  | more hnext _ ih =>
    rw [tokens_of_token hnext, ih]
    simp

/-- A token that is read is the next one at some cursor on the way. -/
theorem exists_next (h : Reads cur ts last) (ht : t ∈ ts) :
    ∃ us mid after, Reads cur us mid ∧ mid.next = (.token t, after) := by
  induction h with
  | done => cases ht
  | @more cur after last u ts hnext _ ih =>
    rcases List.mem_cons.1 ht with rfl | ht
    · exact ⟨[], cur, after, .done cur, hnext⟩
    · obtain ⟨us, mid, after', hus, hmid⟩ := ih ht
      exact ⟨u :: us, mid, after', .more hnext hus, hmid⟩

end Reads

/-- All that a cursor gives is read on one way, up to where the source or the reading ends. -/
theorem exists_reads (cur : Cursor) (before : Array Token) : ∃ ts last, Reads cur ts last ∧
    (cur.tokens before).1 = before ++ ts.toArray ∧
    match (cur.tokens before).2 with
    | none => ∃ after, last.next = (.atEnd, after)
    | some e => ∃ after, last.next = (.error e, after) := by
  fun_induction tokens cur before with
  | case1 cur before after hnext => exact ⟨[], cur, .done cur, by simp, after, hnext⟩
  | case2 cur before e after hnext => exact ⟨[], cur, .done cur, by simp, after, hnext⟩
  | case3 cur before t after hnext ih =>
    obtain ⟨ts, last, hts, hall, hend⟩ := ih
    exact ⟨t :: ts, last, .more hnext hts, by simp [hall], hend⟩

theorem reads_of_tokenize (h : tokenize source = .ok ts) :
    ∃ last after, Reads (ofString source) ts last ∧ last.next = (.atEnd, after) := by
  obtain ⟨us, last, hus, hall, hend⟩ := exists_reads (ofString source) #[]
  unfold tokenize at h
  split at h
  · next all heq =>
    rw [heq] at hall hend
    obtain ⟨after, hafter⟩ := hend
    cases h
    obtain rfl : all.toList = us := (congrArg Array.toList hall).trans (by simp)
    exact ⟨last, after, hus, hafter⟩
  · cases h

theorem reads_of_error (h : tokenize source = .error e) :
    ∃ ts last after, Reads (ofString source) ts last ∧ last.next = (.error e, after) := by
  obtain ⟨us, last, hus, -, hend⟩ := exists_reads (ofString source) #[]
  unfold tokenize at h
  split at h
  · cases h
  · next heq =>
    rw [heq] at hend
    obtain ⟨after, hafter⟩ := hend
    cases h
    exact ⟨us, last, after, hus, hafter⟩

theorem tokenize_of_error (h : Reads (ofString source) ts last) (hlast : last.next = (.error e, after)) :
    tokenize source = .error e := by
  unfold tokenize
  rw [h.tokens_eq, tokens_of_error hlast]

/-- Every token of a source is the next one at some cursor on the way through it. -/
theorem exists_next_of_tokenize (h : tokenize source = .ok ts) (ht : t ∈ ts) :
    ∃ us cur after, Reads (ofString source) us cur ∧ cur.next = (.token t, after) := by
  obtain ⟨last, -, hreads, -⟩ := reads_of_tokenize h
  exact hreads.exists_next ht

/-! ### Cursors in a source -/

theorem standsIn_ofString (source : String) : (ofString source).StandsIn source := ⟨[], rfl, rfl⟩

theorem StandsIn.skip (h : cur.StandsIn source) (n : Nat) : (cur.skip n).StandsIn source := by
  obtain ⟨front, hsource, hplace⟩ := h
  refine ⟨front ++ cur.rest.take n, ?_, ?_⟩
  · rw [Cursor.skip, List.append_assoc, List.take_append_drop, hsource]
  · rw [Cursor.skip, hplace, Position.advanceAll_append]

theorem Reads.standsIn (h : Reads cur ts last) (hcur : cur.StandsIn source) : last.StandsIn source := by
  induction h with
  | done => exact hcur
  | more hnext _ ih =>
    obtain ⟨_, _, _, _, -, -, -, -, rfl⟩ := exists_munch hnext
    exact ih ((hcur.skip _).skip _)

end Cursor

end Persona
