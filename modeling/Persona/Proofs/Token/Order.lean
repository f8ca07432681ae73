import Persona.Proofs.Token.Reading

/-! The order of tokens.

A lexeme has at least one character, and a character moves the place on: to the next line, or further in
the line. So the tokens of a source start one after the other, and no two at the same place. -/
namespace Persona

namespace Position

/-- The one place is read before the other. -/
def Before (p q : Position) : Prop := p.line < q.line ∨ p.line = q.line ∧ p.column < q.column

variable {p q r : Position}

theorem Before.trans (hpq : p.Before q) (hqr : q.Before r) : p.Before r := by
  unfold Before at *
  omega

theorem Before.coordinate_ne (h : p.Before q) : p.coordinate ≠ q.coordinate := by
  intro heq
  obtain ⟨hline, hcolumn⟩ := Coordinate.mk.inj heq
  unfold Before at h
  omega

theorem before_advance (p : Position) (c : Char) : p.Before (p.advance c) := by
  unfold advance
  split
  · exact .inl (Nat.lt_succ_self _)
  · exact .inr ⟨rfl, Nat.lt_succ_self _⟩

/-- Characters, if there are any, move the place on. -/
theorem eq_or_before_advanceAll (cs : List Char) (p : Position) : p = p.advanceAll cs ∨ p.Before (p.advanceAll cs) := by
  induction cs generalizing p with
  | nil => exact .inl rfl
  | cons c cs ih =>
    rw [advanceAll_cons]
    rcases ih (p.advance c) with heq | hbefore
    · exact .inr (heq ▸ p.before_advance c)
    · exact .inr ((p.before_advance c).trans hbefore)

theorem before_advanceAll (c : Char) (cs : List Char) (p : Position) : p.Before (p.advanceAll (c :: cs)) := by
  rw [advanceAll_cons]
  rcases eq_or_before_advanceAll cs (p.advance c) with heq | hbefore
  · exact heq ▸ p.before_advance c
  · exact (p.before_advance c).trans hbefore

end Position

/-- The tokens start one after the other. -/
def Ordered (ts : List Token) : Prop := ts.Pairwise fun t u => t.start.Before u.start

namespace Cursor

/-- A token starts where the cursor is or behind it, and ends behind its start. -/
theorem ordered_next {cur after : Cursor} {t : Token} (h : cur.next = (.token t, after)) :
    (cur.position = t.start ∨ cur.position.Before t.start) ∧ t.start.Before after.position := by
  obtain ⟨n, c, cs, l, -, hrest, -, rfl, rfl⟩ := exists_munch h
  refine ⟨Position.eq_or_before_advanceAll _ _, ?_⟩
  obtain ⟨taken, htaken⟩ := Nat.exists_eq_succ_of_ne_zero (Nat.pos_iff_ne_zero.1 (Lexer.munch_taken c cs))
  show Position.Before _ (Position.advanceAll _ _)
  rw [hrest, htaken, List.take_succ_cons]
  exact Position.before_advanceAll ..

/-- The tokens on a way start where it begins or further on, one after the other. -/
theorem Reads.ordered {cur last : Cursor} {ts : List Token} (h : Reads cur ts last) :
    Ordered ts ∧ ∀ t ∈ ts, cur.position = t.start ∨ cur.position.Before t.start := by
  induction h with
  | done => exact ⟨.nil, nofun⟩
  | @more cur after last t ts hnext _ ih =>
    obtain ⟨hstart, hstop⟩ := ordered_next hnext
    have hlater : ∀ u ∈ ts, t.start.Before u.start := by
      intro u hu
      rcases ih.2 u hu with heq | hbefore
      · exact heq ▸ hstop
      · exact hstop.trans hbefore
    refine ⟨List.pairwise_cons.2 ⟨hlater, ih.1⟩, List.forall_mem_cons.2 ⟨hstart, fun u hu => .inr ?_⟩⟩
    rcases hstart with heq | hbefore
    · exact heq ▸ hlater u hu
    · exact hbefore.trans (hlater u hu)

end Cursor

theorem ordered_of_tokenize {source : String} {ts : List Token} (h : tokenize source = .ok ts) : Ordered ts := by
  obtain ⟨_, -, hreads, -⟩ := Cursor.reads_of_tokenize h
  exact hreads.ordered.1

/-- No two tokens start at the same place. -/
theorem Ordered.nodup {ts : List Token} (h : Ordered ts) : (ts.map (·.start.coordinate)).Nodup :=
  List.pairwise_map.2 (h.imp Position.Before.coordinate_ne)

end Persona
