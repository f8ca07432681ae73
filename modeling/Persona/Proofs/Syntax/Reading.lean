import Mathlib.Data.List.Forall2
import Persona.Syntax.Parser

/-! Parsers and rows of lexemes.

What a parser takes is told by lexemes. It *passes* a row of them if, on tokens that say the
row and then more, it does what another parser does behind the row. A parser that has passed a
row and has its result there *gives* it. So a run is followed one lexeme at a time, and a loop
that has yet to go on is as good as a result. -/
namespace Persona

/-- What is known of the places of tokens. It is known as well of those that are left. -/
structure Layout where
  Holds : List Token → Prop
  suffix : ∀ {ts ts' : List Token}, ts' <:+ ts → Holds ts → Holds ts'

/-- Nothing is known of the places. -/
def Layout.any : Layout := ⟨fun _ => True, fun _ _ => trivial⟩

namespace Parser

/-- On tokens that say `ls` and then `more`, the parser does what one of `K` does behind `ls`. -/
def Passes (L : Layout) (p : Parser α) (ls more : List Lexeme) (K : Parser α → Prop) : Prop :=
  ∀ ts, L.Holds ts → ts.map (·.lexeme) = ls ++ more →
    ∃ q ts', K q ∧ p ts = q ts' ∧ ts' <:+ ts ∧ ts'.map (·.lexeme) = more

/-- The parser has such a result and takes nothing. -/
def Gives (Q : α → Prop) (q : Parser α) : Prop := ∃ a, Q a ∧ q = pure a

variable {L : Layout} {ls ls' more : List Lexeme} {l : Lexeme} {α β : Type}

namespace Passes

variable {p : Parser α} {f : α → Parser β} {K K' : Parser α → Prop} {Kb : Parser β → Prop}
  {Q : α → Prop}

theorem here (hp : K p) : Passes L p [] more K :=
  fun ts _ hts => ⟨p, ts, hp, rfl, List.suffix_rfl, hts⟩

theorem done {a : α} (ha : Q a) : Passes L (pure a) [] more (Gives Q) := here ⟨a, ha, rfl⟩

theorem imp (hp : Passes L p ls more K) (hK : ∀ q, K q → K' q) : Passes L p ls more K' := by
  intro ts hL hts
  obtain ⟨q, ts', hq, hrun⟩ := hp ts hL hts
  exact ⟨q, ts', hK q hq, hrun⟩

/-- On each of the tokens the parser may do what another one does. -/
theorem of_eq (h : ∀ ts, L.Holds ts → ts.map (·.lexeme) = ls ++ more → ∃ q, Passes L q ls more K ∧ p ts = q ts) :
    Passes L p ls more K := by
  intro ts hL hts
  obtain ⟨q, hq, hrun⟩ := h ts hL hts
  rw [hrun]
  exact hq ts hL hts

/-- What needs no layout is so in all of them. -/
theorem inAny (hp : Passes .any p ls more K) : Passes L p ls more K := fun ts _ hts => hp ts trivial hts

/-- What is left of a parser behind the first row may pass another. -/
theorem trans (hp : Passes L p ls (ls' ++ more) K) (hK : ∀ q, K q → Passes L q ls' more K') :
    Passes L p (ls ++ ls') more K' := by
  intro ts hL hts
  rw [List.append_assoc] at hts
  obtain ⟨q, ts₁, hq, hrun, hsuffix, hts₁⟩ := hp ts hL hts
  obtain ⟨q', ts₂, hq', hrun', hsuffix', hts₂⟩ := hK q hq ts₁ (L.suffix hsuffix hL) hts₁
  exact ⟨q', ts₂, hq', hrun.trans hrun', hsuffix'.trans hsuffix, hts₂⟩

theorem bind (hp : Passes L p ls (ls' ++ more) K) (hf : ∀ q, K q → Passes L (q >>= f) ls' more Kb) :
    Passes L (p >>= f) (ls ++ ls') more Kb := by
  intro ts hL hts
  rw [List.append_assoc] at hts
  obtain ⟨q, ts₁, hq, hrun, hsuffix, hts₁⟩ := hp ts hL hts
  obtain ⟨q', ts₂, hq', hrun', hsuffix', hts₂⟩ := hf q hq ts₁ (L.suffix hsuffix hL) hts₁
  refine ⟨q', ts₂, hq', ?_, hsuffix'.trans hsuffix, hts₂⟩
  rw [← hrun']
  show (p ts >>= fun x => f x.1 x.2) = (q ts₁ >>= fun x => f x.1 x.2)
  rw [hrun]

/-- A result, and what is done with it. -/
theorem andThen (hp : Passes L p ls (ls' ++ more) (Gives Q)) (hf : ∀ a, Q a → Passes L (f a) ls' more Kb) :
    Passes L (p >>= f) (ls ++ ls') more Kb := by
  refine hp.bind ?_
  rintro q ⟨a, ha, rfl⟩
  rw [pure_bind]
  exact hf a ha

/-- A result that one lexeme has, and what is done with it behind that. -/
theorem first (hp : Passes L p [l] (ls ++ more) (Gives Q)) (hf : ∀ a, Q a → Passes L (f a) ls more Kb) :
    Passes L (p >>= f) (l :: ls) more Kb := hp.andThen hf

/-- A result that all lexemes have, and what is done with it. -/
theorem last (hp : Passes L p ls more (Gives Q)) (hf : ∀ a, Q a → Passes L (f a) [] more Kb) :
    Passes L (p >>= f) ls more Kb := by
  rw [← List.append_nil ls]
  exact hp.andThen hf

/-- A parser that has passed all lexemes may still go on. -/
theorem behind (hp : Passes L p ls more K) (hK : ∀ q, K q → Passes L q [] more K') : Passes L p ls more K' := by
  rw [← List.append_nil ls]
  exact hp.trans hK

theorem map {g : α → β} {R : β → Prop} (hp : Passes L p ls more (Gives Q)) (hg : ∀ a, Q a → R (g a)) :
    Passes L (g <$> p) ls more (Gives R) := by
  rw [map_eq_pure_bind]
  exact hp.last fun a ha => done (hg a ha)

end Passes

/-! ### Single tokens -/

section
variable {K : Parser α → Prop}

/-- A look at the tokens takes none of them. -/
theorem passes_look {look : Parser β} {f : β → Parser α} {g : List Token → β}
    (hlook : ∀ ts, look ts = .ok (g ts, ts))
    (hf : ∀ ts, ts.map (·.lexeme) = ls ++ more → Passes L (f (g ts)) ls more K) :
    Passes L (look >>= f) ls more K := by
  intro ts hL hts
  obtain ⟨q, ts', hq, hrun, hrest⟩ := hf ts hts ts hL hts
  refine ⟨q, ts', hq, ?_, hrest⟩
  rw [← hrun]
  show (look ts >>= fun x => f x.1 x.2) = _
  rw [hlook]
  rfl

theorem passes_peekLexeme {f : Option Lexeme → Parser α} (hf : Passes L (f (ls ++ more).head?) ls more K) :
    Passes L (peekLexeme >>= f) ls more K := by
  refine passes_look (g := fun ts => ts.head?.map (·.lexeme)) (fun _ => rfl) fun ts hts => ?_
  rwa [← List.head?_map, hts]

theorem passes_peek {f : Option Token → Parser α}
    (hf : ∀ start stop, Passes L (f (some ⟨l, start, stop⟩)) (l :: ls) more K) :
    Passes L (peek >>= f) (l :: ls) more K := by
  refine passes_look (g := List.head?) (fun _ => rfl) fun ts hts => ?_
  cases ts with
  | nil => cases hts
  | cons t rest =>
    obtain ⟨rfl, -⟩ := List.cons.inj hts
    exact hf t.start t.stop

theorem passes_place {f : Coordinate → Parser α} (hf : ∀ place, Passes L (f place) ls more K) :
    Passes L (Parser.here >>= f) ls more K :=
  passes_look (fun _ => rfl) fun _ _ => hf _

/-- The bound of a repetition is as long as what is left. -/
theorem passes_get {f : List Token → Parser α}
    (hf : ∀ bound, bound.length = (ls ++ more).length → Passes L (f bound) ls more K) :
    Passes L (get >>= f) ls more K := by
  refine passes_look (fun _ => rfl) fun ts hts => hf ts ?_
  rw [← hts, List.length_map]

theorem passes_advance {f : Unit → Parser α} (hf : Passes L (f ()) ls more K) :
    Passes L (advance >>= f) (l :: ls) more K := by
  intro ts hL hts
  cases ts with
  | nil => cases hts
  | cons t rest =>
    obtain ⟨q, ts', hq, hrun, hsuffix, hts'⟩ :=
      hf rest (L.suffix (List.suffix_cons t rest) hL) (List.cons.inj hts).2
    exact ⟨q, ts', hq, hrun, hsuffix.trans (List.suffix_cons t rest), hts'⟩

end

theorem passes_accept : Passes L (accept l) [l] more (Gives (· = true)) := by
  refine passes_peekLexeme ?_
  show Passes L (if some l = some l then _ else _) _ _ _
  rw [if_pos rfl]
  exact passes_advance (.done rfl)

theorem passes_accept_not (hmore : more.head? ≠ some l) : Passes L (accept l) [] more (Gives (· = false)) := by
  refine passes_peekLexeme ?_
  show Passes L (if more.head? = some l then _ else _) _ _ _
  rw [if_neg hmore]
  exact .done rfl

theorem passes_expect : Passes L (expect l) [l] more (Gives fun _ => True) := by
  refine passes_peekLexeme ?_
  show Passes L (if l = l then advance else _) [l] more _
  rw [if_pos rfl, ← bind_pure advance]
  exact passes_advance (.done trivial)

theorem passes_expectClosing {m : Mark} (missing : SyntaxFault) :
    Passes L (expectClosing m missing) [.mark m] more (Gives fun _ => True) := by
  refine passes_accept.last ?_
  rintro _ rfl
  exact .done trivial

theorem passes_expectName {name : String} : Passes L expectName [.name name] more (Gives (· = name)) :=
  passes_peekLexeme (passes_advance (.done rfl))

theorem passes_numberValue {text : String} {x : Float} (hx : Decimal.parse? text = some x) :
    Passes L (numberValue text) [l] more (Gives (· = x)) := by
  unfold numberValue
  rw [hx]
  exact passes_advance (.done rfl)

/-! ### Rows -/

/-- Rows of lexemes in one, with commas between them. -/
def joined : List (List Lexeme) → List Lexeme
  | [] => []
  | [ls] => ls
  | ls :: rest => ls ++ .mark .comma :: joined rest

theorem length_le_joined {rows : List (List Lexeme)} (hrows : ∀ ls ∈ rows, ls ≠ []) :
    rows.length ≤ (joined rows).length := by
  induction rows with
  | nil => exact Nat.le_refl 0
  | cons ls rest ih =>
    obtain ⟨hls, hrest⟩ := List.forall_mem_cons.1 hrows
    have hpos := List.length_pos_iff.2 hls
    have ih := ih hrest
    cases rest with
    | nil => exact hpos
    | cons _ _ =>
      show _ ≤ (ls ++ ([Lexeme.mark .comma] ++ joined _)).length
      rw [List.length_append, List.length_append, List.length_cons, List.length_singleton]
      omega

/-- A row that ends here, or has another item behind a comma. -/
def Closes (close : Mark) (more : List Lexeme) : Prop :=
  more.head? = some (.mark .comma) ∨ more.head? = some (.mark close)

/-- Something stands before the end of the row. -/
def Opens (close : Mark) (ls : List Lexeme) : Prop := ∃ l rest, ls = l :: rest ∧ l ≠ .mark close

theorem Opens.append {close : Mark} (h : Opens close ls) (ls' : List Lexeme) : Opens close (ls ++ ls') := by
  obtain ⟨l, rest, rfl, hl⟩ := h
  exact ⟨l, rest ++ ls', rfl, hl⟩

/-- An item of a row, wherever it stands in it. -/
structure IsItem (L : Layout) (close : Mark) (item : Parser α) (ls : List Lexeme) (Q : α → Prop) : Prop where
  opens : Opens close ls
  passes : ∀ {more}, Closes close more → Passes L item ls more (Gives Q)

/-- What a round of a row does: an item, and behind a comma the rest. -/
def roundOf (item : Parser α) (loop : (before : List α) → Parser (List α)) (before : List α) :
    Parser (List α) := do
  let x ← item
  if ← accept (.mark .comma) then loop (x :: before) else return (x :: before).reverse

section
variable {item : Parser α} {close : Mark} {spell : β → List Lexeme} {Q : β → α → Prop} {xs : List β}
  {loop : (bound : List Token) → (before : List α) → Parser (List α)}

/-- A loop that takes a row of items, one a round. -/
theorem passes_loop (hcomma : close ≠ .comma)
    (hend : ∀ {t bound before more}, Passes L (loop (t :: bound) before) [] (.mark close :: more)
      (Gives (· = before.reverse)))
    (hround : ∀ {t bound before ls more K}, Opens close ls →
      Passes L (roundOf item (loop bound) before) ls more K → Passes L (loop (t :: bound) before) ls more K)
    (hitems : ∀ x ∈ xs, IsItem L close item (spell x) (Q x)) {bound : List Token}
    (hbound : xs.length < bound.length) {before : List α} :
    Passes L (loop bound before) (joined (xs.map spell)) (.mark close :: more)
      (Gives fun as => ∃ new, as = before.reverse ++ new ∧ List.Forall₂ Q xs new) := by
  induction xs generalizing bound before with
  | nil =>
    obtain ⟨t, bound, rfl⟩ := List.exists_cons_of_length_pos (Nat.lt_of_le_of_lt (Nat.zero_le _) hbound)
    refine hend.imp ?_
    rintro q ⟨a, rfl, rfl⟩
    exact ⟨_, ⟨[], (List.append_nil _).symm, .nil⟩, rfl⟩
  | cons x xs ih =>
    obtain ⟨hx, hxs⟩ := List.forall_mem_cons.1 hitems
    rw [List.length_cons] at hbound
    obtain ⟨t, bound, rfl⟩ := List.exists_cons_of_length_pos (Nat.lt_of_le_of_lt (Nat.zero_le _) hbound)
    cases xs with
    | nil =>
      show Passes L (loop (t :: bound) before) (spell x) _ _
      refine hround hx.opens ?_
      refine (hx.passes (.inr rfl)).last fun a ha => ?_
      refine (passes_accept_not ?_).last ?_
      · exact fun h => hcomma (Lexeme.mark.inj (Option.some.inj h))
      · rintro _ rfl
        exact .done ⟨[a], List.reverse_cons, .cons ha .nil⟩
    | cons y ys =>
      have hjoined : joined ((x :: y :: ys).map spell) =
          spell x ++ ([.mark .comma] ++ joined ((y :: ys).map spell)) := rfl
      rw [hjoined]
      refine hround (hx.opens.append _) ?_
      refine (hx.passes (.inl rfl)).andThen fun a ha => passes_accept.andThen ?_
      rintro _ rfl
      refine (ih hxs (Nat.lt_of_succ_lt_succ hbound)).imp ?_
      rintro q ⟨_, ⟨new, rfl, hnew⟩, rfl⟩
      refine ⟨_, ⟨a :: new, ?_, .cons ha hnew⟩, rfl⟩
      rw [List.reverse_cons, List.append_assoc]
      rfl

theorem passes_separated (hcomma : close ≠ .comma) (hitems : ∀ x ∈ xs, IsItem L close item (spell x) (Q x))
    {bound : List Token} (hbound : xs.length < bound.length) {before : List α} :
    Passes L (separated close item bound before) (joined (xs.map spell)) (.mark close :: more)
      (Gives fun as => ∃ new, as = before.reverse ++ new ∧ List.Forall₂ Q xs new) := by
  refine passes_loop hcomma ?_ ?_ hitems hbound
  · intro t bound before more
    refine passes_peekLexeme ?_
    show Passes L (if (Lexeme.mark close) = .mark close then _ else _) _ _ _
    rw [if_pos rfl]
    exact .done rfl
  · rintro t bound before _ more K ⟨l, rest, rfl, hl⟩ hround
    refine passes_peekLexeme ?_
    show Passes L (if l = .mark close then _ else _) _ _ _
    rw [if_neg hl]
    exact hround

theorem passes_members (hcomma : close ≠ .comma) (hitems : ∀ x ∈ xs, IsItem L close item (spell x) (Q x))
    {bound : List Token} (hbound : xs.length < bound.length) {before : List α} :
    Passes L (members close item bound before) (joined (xs.map spell)) (.mark close :: more)
      (Gives fun as => ∃ new, as = before.reverse ++ new ∧ List.Forall₂ Q xs new) := by
  refine passes_loop hcomma ?_ ?_ hitems hbound
  · intro t bound before more
    refine passes_peekLexeme ?_
    show Passes L (if some (Lexeme.mark close) = some (.mark close) then _ else _) _ _ _
    rw [if_pos rfl]
    exact .done rfl
  · rintro t bound before _ more K ⟨l, rest, rfl, hl⟩ hround
    refine passes_peekLexeme ?_
    show Passes L (if some l = some (.mark close) then _ else _) _ _ _
    rw [if_neg fun h => hl (Option.some.inj h)]
    exact hround

/-- There are no more items than lexemes, the closing mark not counted. -/
theorem length_lt_of_items (hitems : ∀ x ∈ xs, IsItem L close item (spell x) (Q x)) (more : List Lexeme) :
    xs.length < (joined (xs.map spell) ++ ([Lexeme.mark close] ++ more)).length := by
  have hrows : ∀ ls ∈ xs.map spell, ls ≠ [] := by
    rw [List.forall_mem_map]
    intro x hx
    obtain ⟨l, rest, hspell, -⟩ := (hitems x hx).opens
    rw [hspell]
    exact List.cons_ne_nil l rest
  have hle := length_le_joined hrows
  rw [List.length_map] at hle
  simp only [List.length_append, List.length_cons]
  omega

theorem passes_row (hcomma : close ≠ .comma) (missing : SyntaxFault)
    (hitems : ∀ x ∈ xs, IsItem L close item (spell x) (Q x)) :
    Passes L (row close missing item) (joined (xs.map spell) ++ [.mark close]) more
      (Gives (List.Forall₂ Q xs)) := by
  have hlength := length_lt_of_items hitems more
  refine passes_get fun bound hbound => ?_
  rw [List.append_assoc] at hbound
  refine (passes_separated hcomma hitems (hbound ▸ hlength)).andThen ?_
  rintro _ ⟨new, rfl, hnew⟩
  exact (passes_expectClosing missing).last fun _ _ => .done hnew

theorem passes_body (hcomma : close ≠ .comma) (missing : SyntaxFault)
    (hitems : ∀ x ∈ xs, IsItem L close item (spell x) (Q x)) :
    Passes L (body close missing item) (joined (xs.map spell) ++ [.mark close]) more
      (Gives (List.Forall₂ Q xs)) := by
  have hlength := length_lt_of_items hitems more
  refine passes_get fun bound hbound => ?_
  rw [List.append_assoc] at hbound
  refine (passes_members hcomma hitems (hbound ▸ hlength)).andThen ?_
  rintro _ ⟨new, rfl, hnew⟩
  exact (passes_expectClosing missing).last fun _ _ => .done hnew

end

end Parser

end Persona
