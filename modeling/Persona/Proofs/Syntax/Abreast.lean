import Mathlib.Data.List.Forall2
import Persona.Syntax.Parser

/-! Two parsings side by side.

Two texts that say the same lexemes are parsed in step: at every moment the two parsers stand before
the tokens with the same index, and if they fail, they fail at the tokens with the same index. The
second parser may have more room. Then the first may be the only one to fail, but only because its room
is used up. -/
namespace Persona

/-- Behind every `return`, the next token stands on its line in both texts or in neither. -/
def SameReturns (ts ts' : List Token) : Prop :=
  ∀ (i : Nat) (t u t' u' : Token), ts[i]? = some t → ts[i + 1]? = some u → ts'[i]? = some t' → ts'[i + 1]? = some u' →
    t.lexeme = .keyword .returnKey → (u.start.line = t.start.line ↔ u'.start.line = t'.start.line)

theorem SameReturns.refl (ts : List Token) : SameReturns ts ts := by
  intro i t u t' u' ht hu ht' hu' _
  rw [Option.some.inj (ht.symm.trans ht'), Option.some.inj (hu.symm.trans hu')]

namespace Parser

/-- Two texts of the same lexemes and the room for them, `extra` more in the second. The view of a
coordinate does not tell where a token stands from where the one with the same index stands. -/
structure Abreast where
  first : List Token
  second : List Token
  view : Coordinate → Coordinate
  limit : Nat
  extra : Nat
  lexemes : first.map (·.lexeme) = second.map (·.lexeme)
  views : ∀ (i : Nat) (t t' : Token), first[i]? = some t → second[i]? = some t' →
    view t.start.coordinate = view t'.start.coordinate
  returns : SameReturns first second

namespace Abreast

variable {A : Abreast} {α β : Type} {i : Nat}

theorem lexeme_eq (A : Abreast) (i : Nat) : A.first[i]?.map (·.lexeme) = A.second[i]?.map (·.lexeme) := by
  rw [← List.getElem?_map, ← List.getElem?_map, A.lexemes]

theorem exists_second {t : Token} (h : A.first[i]? = some t) : ∃ t', A.second[i]? = some t' ∧ t.lexeme = t'.lexeme := by
  have hlexeme := A.lexeme_eq i
  rw [h] at hlexeme
  obtain ⟨t', ht', heq⟩ := Option.map_eq_some_iff.1 hlexeme.symm
  exact ⟨t', ht', heq.symm⟩

theorem second_none (h : A.first[i]? = none) : A.second[i]? = none := by
  have hlexeme := A.lexeme_eq i
  rw [h] at hlexeme
  exact Option.map_eq_none_iff.1 hlexeme.symm

/-! ### Outcomes -/

/-- The outcomes of two parsers belong together: they stand before the same index and their results are
related; or both fail with the same fault, at the end or at the tokens with the same index; or the first
has no room left where the second has some. -/
inductive Meets (A : Abreast) (Q : Nat → α → α → Prop) :
    (outcome outcome' : Except SyntaxError (α × List Token)) → Prop where
  | ok {i : Nat} {a a' : α} : Q i a a' → Meets A Q (.ok (a, A.first.drop i)) (.ok (a', A.second.drop i))
  | atEnd (fault) : Meets A Q (.error ⟨fault, none⟩) (.error ⟨fault, none⟩)
  | atToken (fault) {i : Nat} {t t' : Token} : A.first[i]? = some t → A.second[i]? = some t' →
    Meets A Q (.error ⟨fault, some t.start.coordinate⟩) (.error ⟨fault, some t'.start.coordinate⟩)
  | noRoom (place outcome') : 0 < A.extra → Meets A Q (.error ⟨.nestingTooDeep A.limit, place⟩) outcome'

/-- From the tokens behind an index, the two parsers have outcomes that belong together. -/
def Keeps (A : Abreast) (i : Nat) (p p' : Parser α) (Q : Nat → α → α → Prop) : Prop :=
  A.Meets Q (p (A.first.drop i)) (p' (A.second.drop i))

/-- The two parsers give related results wherever they start. -/
def Alike (A : Abreast) (R : α → α → Prop) (p p' : Parser α) : Prop := ∀ i, A.Keeps i p p' fun _ => R

variable {Q : Nat → α → α → Prop} {Q' : Nat → β → β → Prop} {R S : α → α → Prop} {R' : β → β → Prop}
  {p p' : Parser α} {k k' : α → Parser β}

theorem Keeps.bind (hp : A.Keeps i p p' Q) (hk : ∀ j a a', Q j a a' → A.Keeps j (k a) (k' a') Q') :
    A.Keeps i (p >>= k) (p' >>= k') Q' := by
  have hbind : ∀ {q : Parser α} {l : α → Parser β} ts, (q >>= l) ts = (q ts >>= fun x => l x.1 x.2) := fun _ => rfl
  unfold Keeps at hp ⊢
  rw [hbind, hbind]
  generalize p (A.first.drop i) = outcome, p' (A.second.drop i) = outcome' at hp ⊢
  cases hp with
  | ok h => exact hk _ _ _ h
  | atEnd fault => exact .atEnd fault
  | atToken fault ht ht' => exact .atToken fault ht ht'
  | noRoom place _ hextra => exact .noRoom place _ hextra

theorem Keeps.imp (hp : A.Keeps i p p' Q) {P : Nat → α → α → Prop} (h : ∀ j a a', Q j a a' → P j a a') :
    A.Keeps i p p' P := by
  unfold Keeps at hp ⊢
  generalize p (A.first.drop i) = outcome, p' (A.second.drop i) = outcome' at hp ⊢
  cases hp with
  | ok ha => exact .ok (h _ _ _ ha)
  | atEnd fault => exact .atEnd fault
  | atToken fault ht ht' => exact .atToken fault ht ht'
  | noRoom place _ hextra => exact .noRoom place _ hextra

namespace Alike

theorem pure {a a' : α} (h : R a a') : A.Alike R (pure a) (pure a') := fun _ => .ok h

theorem bind (hp : A.Alike R p p') (hk : ∀ a a', R a a' → A.Alike R' (k a) (k' a')) :
    A.Alike R' (p >>= k) (p' >>= k') :=
  fun i => (hp i).bind fun j a a' h => hk a a' h j

/-- Behind equal results the two go on with one value. -/
theorem same (hp : A.Alike Eq p p') (hk : ∀ a, A.Alike R' (k a) (k' a)) : A.Alike R' (p >>= k) (p' >>= k') := by
  refine hp.bind ?_
  rintro a _ rfl
  exact hk a

theorem imp (hp : A.Alike R p p') (h : ∀ a a', R a a' → S a a') : A.Alike S p p' :=
  fun i => (hp i).imp fun _ => h

theorem map {g g' : α → β} (hp : A.Alike R p p') (h : ∀ a a', R a a' → R' (g a) (g' a')) :
    A.Alike R' (g <$> p) (g' <$> p') := by
  rw [map_eq_pure_bind, map_eq_pure_bind]
  exact hp.bind fun a a' ha => .pure (h a a' ha)

/-- A parser that has no room fails only in one way, and then anything may become of the other one. -/
theorem noRoom (hextra : 0 < A.extra) : A.Alike R (failHere (.nestingTooDeep A.limit)) p' :=
  fun _ => .noRoom _ _ hextra

end Alike

/-! ### Single tokens -/

/-- A look at the tokens. -/
theorem keeps_look {look : Parser α} {g : List Token → α} (hlook : ∀ ts, look ts = .ok (g ts, ts))
    (h : Q i (g (A.first.drop i)) (g (A.second.drop i))) : A.Keeps i look look Q := by
  unfold Keeps
  rw [hlook, hlook]
  exact .ok h

/-- What the token with an index says, if there is one. -/
theorem head?_drop (A : Abreast) (i : Nat) :
    (A.first.drop i).head?.map (·.lexeme) = (A.second.drop i).head?.map (·.lexeme) := by
  rw [List.head?_drop, List.head?_drop, A.lexeme_eq]

/-- The same lexeme, at places that the view does not tell apart. -/
def SameToken (A : Abreast) (t t' : Token) : Prop :=
  t.lexeme = t'.lexeme ∧ A.view t.start.coordinate = A.view t'.start.coordinate

theorem keeps_peek : A.Keeps i peek peek fun j t? t?' =>
    j = i ∧ t? = A.first[i]? ∧ t?' = A.second[i]? ∧ Option.Rel A.SameToken t? t?' := by
  refine keeps_look (g := List.head?) (fun _ => rfl) ?_
  rw [List.head?_drop, List.head?_drop]
  refine ⟨rfl, rfl, rfl, ?_⟩
  cases ht : A.first[i]? with
  | none =>
    rw [second_none ht]
    exact .none
  | some t =>
    obtain ⟨t', ht', hlexeme⟩ := exists_second ht
    rw [ht']
    exact .some ⟨hlexeme, A.views i t t' ht ht'⟩

theorem alike_peek : A.Alike (Option.Rel A.SameToken) peek peek := fun _ => keeps_peek.imp fun _ _ _ h => h.2.2.2

/-- The lexeme that is next, the same for both, and its index. -/
theorem keeps_peekLexeme : A.Keeps i peekLexeme peekLexeme fun j l? l?' =>
    j = i ∧ l? = l?' ∧ l? = A.first[i]?.map (·.lexeme) := by
  refine keeps_look (g := fun ts => ts.head?.map (·.lexeme)) (fun _ => rfl) ⟨rfl, A.head?_drop i, ?_⟩
  rw [List.head?_drop]

theorem alike_peekLexeme : A.Alike Eq peekLexeme peekLexeme := fun _ => keeps_peekLexeme.imp fun _ _ _ h => h.2.1

/-- The place of the token with an index, as far as there is one. -/
def placeAt (ts : List Token) (i : Nat) : Coordinate :=
  match ts[i]? with
  | some t => t.start.coordinate
  | none => .start

theorem view_placeAt (A : Abreast) (i : Nat) : A.view (placeAt A.first i) = A.view (placeAt A.second i) := by
  unfold placeAt
  cases ht : A.first[i]? with
  | none => rw [second_none ht]
  | some t =>
    obtain ⟨t', ht', -⟩ := exists_second ht
    rw [ht']
    exact A.views i t t' ht ht'

theorem keeps_here : A.Keeps i here here fun j place place' =>
    j = i ∧ place = placeAt A.first i ∧ place' = placeAt A.second i := by
  refine keeps_look (g := fun ts => match ts.head? with
    | some t => t.start.coordinate
    | none => .start) (fun _ => rfl) ⟨rfl, ?_, ?_⟩
  · rw [List.head?_drop, placeAt]
  · rw [List.head?_drop, placeAt]

/-- Two coordinates that look the same. -/
def SamePlace (A : Abreast) (place place' : Coordinate) : Prop := A.view place = A.view place'

theorem alike_here : A.Alike A.SamePlace here here := by
  refine fun i => keeps_here.imp ?_
  rintro j _ _ ⟨-, rfl, rfl⟩
  exact A.view_placeAt i

/-- Tokens that say the same. -/
def SameText : List Token → List Token → Prop := List.Forall₂ fun t t' => t.lexeme = t'.lexeme

theorem alike_get : A.Alike SameText get get := by
  refine fun i => keeps_look (g := id) (fun _ => rfl) ?_
  have hlexemes : (A.first.drop i).map (·.lexeme) = (A.second.drop i).map (·.lexeme) := by
    rw [List.map_drop, A.lexemes, List.map_drop]
  rw [← List.forall₂_eq_eq_eq, List.forall₂_map_left_iff, List.forall₂_map_right_iff] at hlexemes
  exact hlexemes

theorem keeps_advance : A.Keeps i advance advance fun j _ _ => j = i + 1 := by
  have hadvance : ∀ ts, advance ts = .ok ((), ts.tail) := fun _ => rfl
  unfold Keeps
  rw [hadvance, hadvance, List.tail_drop, List.tail_drop]
  exact .ok rfl

theorem alike_advance : A.Alike (fun _ _ => True) advance advance := fun _ => keeps_advance.imp fun _ _ _ _ => trivial

theorem alike_failHere (fault : SyntaxFault) : A.Alike R (failHere fault) (failHere fault) := by
  intro i
  have hfail : ∀ ts, (failHere fault : Parser α) ts = .error ⟨fault, ts.head?.map (·.start.coordinate)⟩ := fun _ => rfl
  unfold Keeps
  rw [hfail, hfail, List.head?_drop, List.head?_drop]
  cases ht : A.first[i]? with
  | none =>
    rw [second_none ht]
    exact .atEnd fault
  | some t =>
    obtain ⟨t', ht', -⟩ := exists_second ht
    rw [ht']
    exact .atToken fault ht ht'

/-- Faults at a token that was seen. -/
theorem keeps_failAt (fault : SyntaxFault) {t : Token} (ht : A.first[i]? = some t) (j : Nat) :
    A.Keeps j (failAt (placeAt A.first i) fault) (failAt (placeAt A.second i) fault) Q := by
  obtain ⟨t', ht', -⟩ := exists_second ht
  have hplace : placeAt A.first i = t.start.coordinate := by rw [placeAt, ht]
  have hplace' : placeAt A.second i = t'.start.coordinate := by rw [placeAt, ht']
  rw [hplace, hplace']
  exact .atToken fault ht ht'

theorem alike_accept (l : Lexeme) : A.Alike Eq (accept l) (accept l) := by
  refine alike_peekLexeme.same fun l? => ?_
  split
  · exact alike_advance.bind fun _ _ _ => .pure rfl
  · exact .pure rfl

theorem alike_expect (l : Lexeme) : A.Alike (fun _ _ => True) (expect l) (expect l) := by
  refine alike_peekLexeme.same fun l? => ?_
  split
  · exact alike_failHere _
  · split
    · exact alike_advance
    · exact alike_failHere _

theorem alike_expectClosing (m : Mark) (missing : SyntaxFault) :
    A.Alike (fun _ _ => True) (expectClosing m missing) (expectClosing m missing) := by
  refine (alike_accept _).same fun found => ?_
  cases found with
  | true => exact .pure trivial
  | false => exact alike_failHere _

/-- Where a name was read there was a token. -/
theorem keeps_expectName : A.Keeps i expectName expectName fun _ name name' =>
    name = name' ∧ ∃ t, A.first[i]? = some t := by
  refine keeps_peekLexeme.bind ?_
  rintro j l? _ ⟨rfl, rfl, hl⟩
  split
  · exact alike_failHere _ _
  · next name =>
    obtain ⟨t, ht, -⟩ := Option.map_eq_some_iff.1 hl.symm
    exact (alike_advance _).bind fun _ _ _ _ => .ok ⟨rfl, t, ht⟩
  · exact alike_failHere _ _

theorem alike_expectName : A.Alike Eq expectName expectName := fun _ => keeps_expectName.imp fun _ _ _ h => h.1

theorem alike_expectType : A.Alike Eq expectType expectType := by
  refine alike_peekLexeme.same fun l? => ?_
  split
  · exact alike_advance.bind fun _ _ _ => .pure rfl
  · exact alike_advance.bind fun _ _ _ => .pure rfl
  · exact alike_expectName

theorem alike_numberValue (text : String) : A.Alike Eq (numberValue text) (numberValue text) := by
  unfold numberValue
  split
  · exact alike_advance.bind fun _ _ _ => .pure rfl
  · exact alike_failHere _

/-! ### Rows -/

section
variable {item item' : Parser α} {close : Mark}

theorem alike_separated (hitem : A.Alike R item item') {bound bound' : List Token} {before before' : List α}
    (hbound : SameText bound bound') (hbefore : List.Forall₂ R before before') :
    A.Alike (List.Forall₂ R) (separated close item bound before) (separated close item' bound' before') := by
  induction hbound generalizing before before' with
  | nil => exact .pure (List.rel_reverse hbefore)
  | cons _ _ ih =>
    refine alike_peekLexeme.same fun l? => ?_
    split
    · exact .pure (List.rel_reverse hbefore)
    · split
      · exact .pure (List.rel_reverse hbefore)
      · refine hitem.bind fun a a' ha => (alike_accept _).same fun comma => ?_
        cases comma with
        | true => exact ih (.cons ha hbefore)
        | false => exact .pure (List.rel_reverse (.cons ha hbefore))

theorem alike_row (hitem : A.Alike R item item') (missing : SyntaxFault) :
    A.Alike (List.Forall₂ R) (row close missing item) (row close missing item') := by
  refine alike_get.bind fun bound bound' hbound => (alike_separated hitem hbound .nil).bind fun as as' has => ?_
  exact (alike_expectClosing _ _).bind fun _ _ _ => .pure has

theorem alike_members (hitem : A.Alike R item item') {bound bound' : List Token} {before before' : List α}
    (hbound : SameText bound bound') (hbefore : List.Forall₂ R before before') :
    A.Alike (List.Forall₂ R) (members close item bound before) (members close item' bound' before') := by
  induction hbound generalizing before before' with
  | nil => exact hitem.bind fun a a' ha => .pure (List.rel_reverse (.cons ha hbefore))
  | cons _ _ ih =>
    refine alike_peekLexeme.same fun l? => ?_
    split
    · exact .pure (List.rel_reverse hbefore)
    · refine hitem.bind fun a a' ha => (alike_accept _).same fun comma => ?_
      cases comma with
      | true => exact ih (.cons ha hbefore)
      | false => exact .pure (List.rel_reverse (.cons ha hbefore))

theorem alike_body (hitem : A.Alike R item item') (missing : SyntaxFault) :
    A.Alike (List.Forall₂ R) (body close missing item) (body close missing item') := by
  refine alike_get.bind fun bound bound' hbound => (alike_members hitem hbound .nil).bind fun as as' has => ?_
  exact (alike_expectClosing _ _).bind fun _ _ _ => .pure has

end

theorem alike_statements {R : Stmt → Stmt → Prop} {item item' : Parser Stmt} (hitem : A.Alike R item item')
    {closing : Bool} {bound bound' : List Token} {before before' : List Stmt}
    (hbound : SameText bound bound') (hbefore : List.Forall₂ R before before') :
    A.Alike (List.Forall₂ R) (statements item closing bound before) (statements item' closing bound' before') := by
  induction hbound generalizing before before' with
  | nil => exact .pure (List.rel_reverse hbefore)
  | cons _ _ ih =>
    refine alike_peekLexeme.same fun l? => ?_
    split
    · exact .pure (List.rel_reverse hbefore)
    · exact alike_advance.bind fun _ _ _ => ih hbefore
    · split
      · exact .pure (List.rel_reverse hbefore)
      · exact hitem.bind fun s s' hs => ih (.cons hs hbefore)

end Abreast

end Parser

end Persona
