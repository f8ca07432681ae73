import Persona.Syntax.Parser

/-! What parsers give.

A property of trees that their forms keep, from the parts to the whole, is a property of all
trees that are parsed. The room that was left for a part is known: an expression that a parser
with some room gives was read with one less, and so are the right operands, the arguments and
all that stands in brackets. What tokens have in common is known of names and literals, of the
places of trait entries and of what a parser complains of when it fails. -/
namespace Persona

/-- The text that a fault says is no number. -/
def SyntaxFault.number? : SyntaxFault → Option String
  | invalidNumber text => some text
  | _ => none

/-! ### Results -/

namespace Parser

/-- Such a token says the lexeme. -/
def Says (I : Token → Prop) (l : Lexeme) : Prop := ∃ t, I t ∧ t.lexeme = l

/-- Such a token starts at the place. -/
def Starts (I : Token → Prop) (place : Coordinate) : Prop := ∃ t, I t ∧ t.start.coordinate = place

/-- The error is where such a token starts, if it has a place, and it is about a number only if such a token says
one that denotes nothing. -/
structure Blames (I : Token → Prop) (e : SyntaxError) : Prop where
  place : ∀ place ∈ e.place, Starts I place
  number : ∀ text ∈ e.fault.number?, Says I (.number text) ∧ Decimal.parse? text = none

/-- In front of these tokens, the parser leaves such tokens and gives such results, or fails with an error that
such tokens account for. -/
def MakesAt (I : Token → Prop) (ts : List Token) (Q : α → Prop) (p : Parser α) : Prop :=
  match p ts with
  | .ok (a, ts') => (∀ t ∈ ts', I t) ∧ Q a
  | .error e => Blames I e

def Makes (I : Token → Prop) (Q : α → Prop) (p : Parser α) : Prop :=
  ∀ ts, (∀ t ∈ ts, I t) → MakesAt I ts Q p

variable {I : Token → Prop} {α β : Type}

theorem MakesAt.bind {Q : α → Prop} {R : β → Prop} {p : Parser α} {f : α → Parser β} {ts : List Token}
    (hp : MakesAt I ts Q p) (hf : ∀ a, Q a → Makes I R (f a)) : MakesAt I ts R (p >>= f) := by
  have hbind : (p >>= f) ts = (p ts >>= fun x => f x.1 x.2) := rfl
  unfold MakesAt at hp ⊢
  rw [hbind]
  cases hp' : p ts with
  | error e =>
    rw [hp'] at hp
    exact hp
  | ok x =>
    rw [hp'] at hp
    exact hf x.1 hp.2 x.2 hp.1

namespace Makes

variable {P Q : α → Prop} {R : β → Prop} {p : Parser α} {f : α → Parser β}

theorem pure {a : α} (ha : Q a) : Makes I Q (pure a) := fun _ hts => ⟨hts, ha⟩

theorem bind (hp : Makes I P p) (hf : ∀ a, P a → Makes I R (f a)) : Makes I R (p >>= f) :=
  fun ts hts => (hp ts hts).bind hf

theorem imp (hp : Makes I P p) (hPQ : ∀ a, P a → Q a) : Makes I Q p := by
  intro ts hts
  have hmakes := hp ts hts
  unfold MakesAt at hmakes ⊢
  split at hmakes
  · exact ⟨hmakes.1, hPQ _ hmakes.2⟩
  · exact hmakes

theorem map {g : α → β} (hp : Makes I P p) (hg : ∀ a, P a → R (g a)) : Makes I R (g <$> p) := by
  rw [map_eq_pure_bind]
  exact hp.bind fun a ha => .pure (hg a ha)

end Makes

/-! ### Single tokens -/

section
variable {Q : α → Prop}

/-- A look at the tokens, of which something is known. -/
theorem makes_look {look : Parser β} {g : List Token → β} {R : β → Prop}
    (hlook : ∀ ts, look ts = .ok (g ts, ts)) (hg : ∀ ts : List Token, (∀ t ∈ ts, I t) → R (g ts)) :
    Makes I R look := by
  intro ts hts
  unfold MakesAt
  rw [hlook]
  exact ⟨hts, hg ts hts⟩

theorem makes_peek : Makes I (fun t? => ∀ t ∈ t?, I t) peek :=
  makes_look (fun _ => rfl) fun _ hts t ht => hts t (List.mem_of_mem_head? ht)

theorem makes_peekLexeme : Makes I (fun l? => ∀ l ∈ l?, Says I l) peekLexeme := by
  refine makes_look (g := fun ts => ts.head?.map (·.lexeme)) (fun _ => rfl) fun ts hts l hl => ?_
  obtain ⟨t, ht, rfl⟩ := Option.map_eq_some_iff.1 hl
  exact ⟨t, hts t (List.mem_of_mem_head? ht), rfl⟩

theorem makes_place : Makes I (fun _ => True) here := makes_look (fun _ => rfl) fun _ _ => trivial

theorem makes_get : Makes I (fun _ => True) (get : Parser (List Token)) :=
  makes_look (fun _ => rfl) fun _ _ => trivial

theorem makes_advance : Makes I (fun _ => True) advance :=
  fun _ hts => ⟨fun t ht => hts t (List.mem_of_mem_tail ht), trivial⟩

/-- An error has the place of the next token, if there is one. -/
theorem blames_of_head {fault : SyntaxFault} {ts : List Token} (hts : ∀ t ∈ ts, I t)
    (hnumber : ∀ text ∈ fault.number?, Says I (.number text) ∧ Decimal.parse? text = none) :
    Blames I ⟨fault, ts.head?.map (·.start.coordinate)⟩ := by
  refine ⟨fun place hplace => ?_, hnumber⟩
  obtain ⟨t, ht, rfl⟩ := Option.map_eq_some_iff.1 hplace
  exact ⟨t, hts t (List.mem_of_mem_head? ht), rfl⟩

theorem makes_failHere {fault : SyntaxFault} (hfault : fault.number? = none) : Makes I Q (failHere fault) := by
  refine fun ts hts => blames_of_head hts fun text htext => ?_
  rw [hfault] at htext
  cases htext

theorem makes_failAt {place : Coordinate} {fault : SyntaxFault} (hplace : Starts I place)
    (hfault : fault.number? = none) : Makes I Q (failAt place fault) := by
  intro ts _
  refine ⟨fun place' hplace' => Option.some.inj hplace' ▸ hplace, fun text htext => ?_⟩
  have htext' : fault.number? = some text := htext
  rw [hfault] at htext'
  cases htext'

namespace MakesAt

variable {t : Token} {ts : List Token}

theorem peekLexeme {k : Option Lexeme → Parser α} (hk : MakesAt I (t :: ts) Q (k (some t.lexeme))) :
    MakesAt I (t :: ts) Q (peekLexeme >>= k) := hk

theorem here {k : Coordinate → Parser α} (hk : MakesAt I (t :: ts) Q (k t.start.coordinate)) :
    MakesAt I (t :: ts) Q (here >>= k) := hk

end MakesAt

end

theorem makes_accept (l : Lexeme) : Makes I (fun _ => True) (accept l) := by
  refine makes_peekLexeme.bind fun _ _ => ?_
  split
  · exact makes_advance.bind fun _ _ => .pure trivial
  · exact .pure trivial

theorem makes_expect (l : Lexeme) : Makes I (fun _ => True) (expect l) := by
  refine makes_peekLexeme.bind fun _ _ => ?_
  split
  · exact makes_failHere rfl
  · split
    · exact makes_advance
    · exact makes_failHere rfl

theorem makes_expectClosing (m : Mark) {missing : SyntaxFault} (hmissing : missing.number? = none) :
    Makes I (fun _ => True) (expectClosing m missing) := by
  refine (makes_accept _).bind fun found _ => ?_
  cases found with
  | true => exact .pure trivial
  | false => exact makes_failHere hmissing

theorem makes_expectName : Makes I (fun name => Says I (.name name)) expectName := by
  refine makes_peekLexeme.bind fun l? hl => ?_
  split
  · exact makes_failHere rfl
  · next name => exact makes_advance.bind fun _ _ => .pure (hl _ rfl)
  · exact makes_failHere rfl

/-- A name, or one of the two keywords that are types. -/
def IsType (I : Token → Prop) (type : String) : Prop := type = "null" ∨ type = "fn" ∨ Says I (.name type)

theorem makes_expectType : Makes I (IsType I) expectType := by
  refine makes_peekLexeme.bind fun l? hl => ?_
  split
  · exact makes_advance.bind fun _ _ => .pure (.inl rfl)
  · exact makes_advance.bind fun _ _ => .pure (.inr (.inl rfl))
  · exact makes_expectName.imp fun _ h => .inr (.inr h)

/-- A text that is no number is that of a token. -/
theorem makes_numberValue {text : String} (htext : Says I (.number text)) :
    Makes I (fun x => Decimal.parse? text = some x) (numberValue text) := by
  unfold numberValue
  split
  · next x hx => exact makes_advance.bind fun _ _ => .pure hx
  · next hnone =>
    refine fun ts hts => blames_of_head hts fun text' htext' => ?_
    cases htext'
    exact ⟨htext, hnone⟩

/-! ### Rows -/

section
variable {Q : α → Prop} {item : Parser α} {close : Mark} {missing : SyntaxFault}

/-- All results of a list. -/
def All (Q : α → Prop) (as : List α) : Prop := ∀ a ∈ as, Q a

theorem All.nil : All Q [] := fun _ ha => absurd ha List.not_mem_nil

theorem All.reverse {as : List α} (h : All Q as) : All Q as.reverse := fun a ha => h a (List.mem_reverse.1 ha)

theorem All.cons {a : α} {as : List α} (ha : Q a) (has : All Q as) : All Q (a :: as) :=
  List.forall_mem_cons.2 ⟨ha, has⟩

theorem makes_separated (hitem : Makes I Q item) {bound : List Token} {before : List α} (hbefore : All Q before) :
    Makes I (All Q) (separated close item bound before) := by
  induction bound generalizing before with
  | nil => exact .pure hbefore.reverse
  | cons _ bound ih =>
    refine makes_peekLexeme.bind fun l? _ => ?_
    split
    · exact .pure hbefore.reverse
    · split
      · exact .pure hbefore.reverse
      · refine hitem.bind fun a ha => (makes_accept _).bind fun comma _ => ?_
        cases comma with
        | true => exact ih (.cons ha hbefore)
        | false => exact .pure (All.cons ha hbefore).reverse

theorem makes_row (hitem : Makes I Q item) (hmissing : missing.number? = none) :
    Makes I (All Q) (row close missing item) := by
  refine makes_get.bind fun bound _ => (makes_separated hitem All.nil).bind fun as has => ?_
  exact (makes_expectClosing _ hmissing).bind fun _ _ => .pure has

theorem makes_members (hitem : Makes I Q item) {bound : List Token} {before : List α} (hbefore : All Q before) :
    Makes I (All Q) (members close item bound before) := by
  induction bound generalizing before with
  | nil => exact hitem.bind fun a ha => .pure (All.cons ha hbefore).reverse
  | cons _ bound ih =>
    refine makes_peekLexeme.bind fun l? _ => ?_
    split
    · exact .pure hbefore.reverse
    · refine hitem.bind fun a ha => (makes_accept _).bind fun comma _ => ?_
      cases comma with
      | true => exact ih (.cons ha hbefore)
      | false => exact .pure (All.cons ha hbefore).reverse

theorem makes_body (hitem : Makes I Q item) (hmissing : missing.number? = none) :
    Makes I (All Q) (body close missing item) := by
  refine makes_get.bind fun bound _ => (makes_members hitem All.nil).bind fun as has => ?_
  exact (makes_expectClosing _ hmissing).bind fun _ _ => .pure has

end

theorem makes_statements {Q : Stmt → Prop} {item : Parser Stmt} (hitem : Makes I Q item) {closing : Bool}
    {bound : List Token} {before : List Stmt} (hbefore : All Q before) :
    Makes I (All Q) (statements item closing bound before) := by
  induction bound generalizing before with
  | nil => exact .pure hbefore.reverse
  | cons _ bound ih =>
    refine makes_peekLexeme.bind fun l? _ => ?_
    split
    · exact .pure hbefore.reverse
    · exact makes_advance.bind fun _ _ => ih hbefore
    · split
      · exact .pure hbefore.reverse
      · exact hitem.bind fun s hs => ih (.cons hs hbefore)

/-! ### Expressions -/

/-- The property holds with one room less, of which there is one. -/
def Within (U : (room : Nat) → α → Prop) (room : Nat) (a : α) : Prop := ∃ inner, room = inner + 1 ∧ U inner a

/-- The forms of expressions keep a property, in some room. -/
structure ExprForms (I : Token → Prop) (U : (room : Nat) → Expr → Prop) : Prop where
  number : ∀ {room text x}, Says I (.number text) → Decimal.parse? text = some x → U room (.literal (.number x))
  string : ∀ {room s}, Says I (.string s) → U room (.literal (.string s))
  bool : ∀ {room b}, U room (.literal (.bool b))
  null : ∀ {room}, U room (.literal .null)
  identifier : ∀ {room name place}, Says I (.name name) → U room (.identifier ⟨name, place⟩)
  array : ∀ {room es}, All (Within U room) es → U room (.array es)
  map : ∀ {room} {es : List (String × Expr)}, All (fun e => Within U room e.2) es → U room (.map es)
  call : ∀ {room place callee es}, U room callee → All (Within U room) es → U room (.call place callee es)
  index : ∀ {room object key}, U room object → Within U room key → U room (.index object key)
  unary : ∀ {room op e}, Within U room e → U room (.unary op e)
  binary : ∀ {room op l r}, U room l → Within U room r → U room (.binary op l r)
  assign : ∀ {room target value}, U room (.identifier target) → Within U room value → U room (.assign target value)
  enclosed : ∀ {room e}, Within U room e → U room e

section
variable {U : (room : Nat) → Expr → Prop} (hU : ExprForms I U) {room : Nat} {expr : Parser Expr}

include hU

theorem makes_base (hexpr : Makes I (Within U room) expr) : Makes I (U room) (base expr) := by
  refine makes_peek.bind fun t? ht => ?_
  split
  · exact makes_failHere rfl
  next t =>
  have ht := ht t rfl
  split
  · next text heq => exact (makes_numberValue ⟨t, ht, heq⟩).bind fun x hx => .pure (hU.number ⟨t, ht, heq⟩ hx)
  · next s heq => exact makes_advance.bind fun _ _ => .pure (hU.string ⟨t, ht, heq⟩)
  · exact makes_advance.bind fun _ _ => .pure hU.bool
  · exact makes_advance.bind fun _ _ => .pure hU.bool
  · exact makes_advance.bind fun _ _ => .pure hU.null
  · next name heq => exact makes_advance.bind fun _ _ => .pure (hU.identifier ⟨t, ht, heq⟩)
  · refine makes_advance.bind fun _ _ => hexpr.bind fun e he => ?_
    exact (makes_expectClosing _ (by rfl)).bind fun _ _ => .pure (hU.enclosed he)
  · exact makes_advance.bind fun _ _ => (makes_row hexpr (by rfl)).bind fun es hes => .pure (hU.array hes)
  · have hentry : Makes I (fun e : String × Expr => Within U room e.2) (mapEntry expr) := by
      have hvalue : ∀ key : String, Makes I (fun e : String × Expr => Within U room e.2)
          (do expect (.mark .colon); return (key, ← expr)) := fun key =>
        (makes_expect _).bind fun _ _ => hexpr.bind fun e he => .pure he
      refine makes_peekLexeme.bind fun l? _ => ?_
      split
      · exact makes_advance.bind fun _ _ => hvalue _
      · exact makes_advance.bind fun _ _ => hvalue _
      · exact (makes_failHere (by rfl) : Makes I (fun _ => True) _).bind fun key _ => hvalue key
      · exact (makes_failHere (by rfl) : Makes I (fun _ => True) _).bind fun key _ => hvalue key
    exact makes_advance.bind fun _ _ => (makes_body hentry (by rfl)).bind fun es hes => .pure (hU.map hes)
  · exact makes_failHere rfl

theorem makes_postfixes (hexpr : Makes I (Within U room) expr) {place : Coordinate} {bound : List Token} {e : Expr}
    (he : U room e) : Makes I (U room) (postfixes expr place bound e) := by
  induction bound generalizing e with
  | nil => exact .pure he
  | cons _ bound ih =>
    refine makes_peekLexeme.bind fun l? _ => ?_
    split
    · exact makes_advance.bind fun _ _ => (makes_row hexpr (by rfl)).bind fun es hes => ih (hU.call he hes)
    · refine makes_advance.bind fun _ _ => hexpr.bind fun key hkey => ?_
      exact (makes_expectClosing _ (by rfl)).bind fun _ _ => ih (hU.index he hkey)
    · exact .pure he

theorem makes_primary (hexpr : Makes I (Within U room) expr) : Makes I (U room) (primary expr) :=
  makes_place.bind fun _ _ => (makes_base hU hexpr).bind fun _ he =>
    makes_get.bind fun _ _ => makes_postfixes hU hexpr he

/-- What cannot be assigned to is reported at its `=`. -/
theorem makes_operators {operand : Nat → Parser Expr} (hoperand : ∀ minimum, Makes I (Within U room) (operand minimum))
    {minimum : Nat} {bound : List Token} {e : Expr} (he : U room e) :
    Makes I (U room) (operators operand minimum bound e) := by
  induction bound generalizing e with
  | nil => exact .pure he
  | cons _ bound ih =>
    intro ts hts
    cases ts with
    | nil => exact ⟨hts, he⟩
    | cons t ts =>
      refine .peekLexeme ?_
      split
      · exact ⟨hts, he⟩
      · split
        · exact ⟨hts, he⟩
        · refine .here ((makes_advance _ hts).bind fun _ _ => (hoperand _).bind fun r hr => ?_)
          split
          · exact ih (hU.binary he hr)
          · exact ih (hU.assign he hr)
          · exact makes_failAt ⟨t, hts t List.mem_cons_self, rfl⟩ rfl

/-- The unary operators take room as expressions do. -/
theorem makes_unary {limit : Nat} (hexpr : Makes I (Within U room) (expression limit room 0))
    (hoperand : Makes I (Within U room) (operand limit room)) : Makes I (U room) (unary limit room) := by
  rw [unary]
  refine makes_peekLexeme.bind fun l? _ => ?_
  split
  · exact hoperand.bind fun e he => .pure (hU.unary he)
  · exact hoperand.bind fun e he => .pure (hU.unary he)
  · exact makes_primary hU hexpr

/-- All expressions have the property, with one room less than there was for them. -/
theorem makes_expression (limit room : Nat) :
    (∀ minimum, Makes I (Within U room) (expression limit room minimum)) ∧ Makes I (U room) (unary limit room) := by
  induction room with
  | zero =>
    have hexpr : ∀ minimum, Makes I (Within U 0) (expression limit 0 minimum) := by
      intro minimum
      rw [expression]
      exact makes_failHere rfl
    refine ⟨hexpr, makes_unary hU (hexpr 0) ?_⟩
    rw [operand]
    exact makes_advance.bind fun _ _ => makes_failHere rfl
  | succ room ih =>
    obtain ⟨hoperand, hunary⟩ := ih
    have hexpr : ∀ minimum, Makes I (Within U (room + 1)) (expression limit (room + 1) minimum) := by
      intro minimum
      rw [expression]
      refine hunary.bind fun left hleft => makes_get.bind fun _ _ => ?_
      exact (makes_operators hU hoperand hleft).imp fun e he => ⟨room, rfl, he⟩
    refine ⟨hexpr, makes_unary hU (hexpr 0) ?_⟩
    rw [operand]
    exact makes_advance.bind fun _ _ => hunary.imp fun e he => ⟨room, rfl, he⟩

end

/-- What all trees have. -/
theorem any_forms : ExprForms I fun _ _ => True where
  number _ _ := trivial
  string _ := trivial
  bool := trivial
  null := trivial
  identifier _ := trivial
  array _ := trivial
  map _ := trivial
  call _ _ := trivial
  index _ _ := trivial
  unary _ := trivial
  binary _ _ := trivial
  assign _ _ := trivial
  enclosed _ := trivial

/-! ### Statements -/

/-- A parameter that has a name and, if any, a type. -/
def IsParam (I : Token → Prop) (p : Param) : Prop := Says I (.name p.name) ∧ ∀ type ∈ p.type, IsType I type

/-- An entry starts where a token does, and its value is written as a number, perhaps with a sign. -/
structure IsEntry (I : Token → Prop) (e : TraitEntry) : Prop where
  place : Starts I e.place
  value : ∃ text x, Says I (.number text) ∧ Decimal.parse? text = some x ∧ (e.value = x ∨ e.value = -x)

/-- The statements of a block, which takes room. -/
def Body (S : Surroundings → (room : Nat) → Stmt → Prop) (around : Surroundings) : (room : Nat) → List Stmt → Prop :=
  Within fun room => All (S ⟨true, around.inLoop⟩ room)

/-- The forms of statements keep a property. -/
structure StmtForms (I : Token → Prop) (U : (room : Nat) → Expr → Prop)
    (S : Surroundings → (room : Nat) → Stmt → Prop) : Prop where
  expr : ∀ {around room place e}, Within U room e → S around room (.expr place e)
  bind : ∀ {around room place name e}, Says I (.name name) → Within U room e → S around room (.bind place name e)
  function : ∀ {around : Surroundings} {room place name params returnType body}, Says I (.name name) →
    All (IsParam I) params → (∀ type ∈ returnType, IsType I type) → Body S ⟨around.inBlock, false⟩ room body →
      S around room (.function ⟨place, name, params, returnType, body⟩)
  cond : ∀ {around room place test yes}, Within U room test → Body S around room yes →
    S around room (.cond place test yes none)
  condElse : ∀ {around room place test yes place' no}, Within U room test → Body S around room yes →
    Body S around room no → S around room (.cond place test yes (some (.block place' no)))
  condChain : ∀ {around room place test yes place' test' yes' no'}, Within U room test → Body S around room yes →
    Within (S around) room (.cond place' test' yes' no') →
      S around room (.cond place test yes (some (.cond place' test' yes' no')))
  whileLoop : ∀ {around : Surroundings} {room place test body}, Within U room test →
    Body S ⟨around.inBlock, true⟩ room body → S around room (.whileLoop place test body)
  forEach : ∀ {around : Surroundings} {room place name iterable body}, Says I (.name name) → Within U room iterable →
    Body S ⟨around.inBlock, true⟩ room body → S around room (.forEach place name iterable body)
  block : ∀ {around room place body}, Body S around room body → S around room (.block place body)
  personality : ∀ {around room place entries}, around.inBlock = false → All (IsEntry I) entries →
    S around room (.personality place entries)
  giveBack : ∀ {around room place e}, (∀ e' ∈ e, Within U room e') → S around room (.giveBack place e)
  leave : ∀ {around room place}, around.inLoop = true → S around room (.leave place)
  again : ∀ {around room place}, around.inLoop = true → S around room (.again place)

theorem makes_param : Makes I (IsParam I) param := by
  refine makes_expectName.bind fun name hname => (makes_accept _).bind fun colon _ => ?_
  cases colon with
  | true =>
    have htype : Makes I (fun type? => ∀ type ∈ type?, IsType I type) (some <$> expectType) :=
      makes_expectType.map fun type htype _ h => Option.some.inj h ▸ htype
    exact htype.bind fun type? htype => .pure ⟨hname, htype⟩
  | false => exact .pure ⟨hname, nofun⟩

theorem makes_traitValue : Makes I
    (fun y => ∃ text x, Says I (.number text) ∧ Decimal.parse? text = some x ∧ (y = x ∨ y = -x)) traitValue := by
  refine (makes_accept _).bind fun negative _ => makes_peekLexeme.bind fun l? hl => ?_
  split
  · next text =>
    refine (makes_numberValue (hl _ rfl)).bind fun x hx => .pure ⟨text, x, hl _ rfl, hx, ?_⟩
    cases negative with
    | true => exact .inr rfl
    | false => exact .inl rfl
  · exact makes_failHere rfl
  · exact makes_failHere rfl

/-- An entry begins at its name, where an unknown name is reported too. -/
theorem makes_traitEntry : Makes I (IsEntry I) traitEntry := by
  intro ts hts
  cases ts with
  | nil => exact @makes_failHere I _ (IsEntry I) .unexpectedEnd rfl [] hts
  | cons t ts =>
    have hplace : Starts I t.start.coordinate := ⟨t, hts t List.mem_cons_self, rfl⟩
    refine .here ((makes_expectName _ hts).bind fun _ _ => ?_)
    split
    · exact makes_failAt hplace rfl
    · exact (makes_expect _).bind fun _ _ => makes_traitValue.bind fun _ hvalue => .pure ⟨hplace, hvalue⟩

theorem makes_personality {around : Surroundings} :
    Makes I (fun es => around.inBlock = false ∧ All (IsEntry I) es) (personality around) := by
  unfold personality
  split
  · exact (makes_failHere (by rfl) : Makes I (fun _ => False) _).bind fun _ h => h.elim
  · next hblock =>
    refine makes_advance.bind fun _ _ => (makes_expect _).bind fun _ _ => ?_
    exact (makes_body makes_traitEntry (by rfl)).imp fun es hes => ⟨Bool.eq_false_iff.2 hblock, hes⟩

theorem makes_returned {Q : Expr → Prop} {expr : Parser Expr} (hexpr : Makes I Q expr) {line : Nat} :
    Makes I (fun e => ∀ e' ∈ e, Q e') (returned expr line) := by
  refine makes_peek.bind fun t? _ => ?_
  split
  · split
    · exact hexpr.map fun e he _ h => Option.some.inj h ▸ he
    · exact .pure nofun
  · exact .pure nofun

section
variable {U : (room : Nat) → Expr → Prop} {S : Surroundings → (room : Nat) → Stmt → Prop} {limit : Nat}

/-- A block has statements of a property, if those that are read with less room have it. -/
theorem makes_block {around : Surroundings} {room : Nat}
    (hstatement : ∀ inner, room = inner + 1 →
      Makes I (S ⟨true, around.inLoop⟩ inner) (statement limit ⟨true, around.inLoop⟩ inner)) :
    Makes I (Body S around room) (block limit around room) := by
  cases room with
  | zero =>
    rw [block]
    exact (makes_expect _).bind fun _ _ => makes_failHere rfl
  | succ room =>
    rw [block]
    refine (makes_expect _).bind fun _ _ => makes_get.bind fun bound _ => ?_
    refine (makes_statements (hstatement room rfl) All.nil).bind fun ss hss => ?_
    exact (makes_expectClosing _ (by rfl)).bind fun _ _ => .pure ⟨room, rfl, hss⟩

variable (hU : ExprForms I U) (hS : StmtForms I U S)

include hU hS

omit hU in
theorem makes_function {around : Surroundings} {room : Nat} {body : Parser (List Stmt)} {place : Coordinate}
    (hbody : Makes I (Body S ⟨around.inBlock, false⟩ room) body) :
    Makes I (S around room) (Stmt.function <$> function body place) := by
  have hdecl : Makes I (fun d => S around room (.function d)) (function body place) := by
    refine makes_advance.bind fun _ _ => makes_expectName.bind fun name hname => (makes_expect _).bind fun _ _ => ?_
    refine (makes_body makes_param (by rfl)).bind fun params hparams => (makes_accept _).bind fun arrow _ => ?_
    have hrest : ∀ returnType : Option String, (∀ type ∈ returnType, IsType I type) →
        Makes I (fun d => S around room (.function d)) (do return ⟨place, name, params, returnType, ← body⟩) :=
      fun returnType htype => hbody.bind fun ss hss => .pure (hS.function hname hparams htype hss)
    cases arrow with
    | true =>
      have htype : Makes I (fun type? => ∀ type ∈ type?, IsType I type) (some <$> expectType) :=
        makes_expectType.map fun type htype _ h => Option.some.inj h ▸ htype
      exact htype.bind hrest
    | false => exact hrest none nofun
  exact hdecl.map fun _ hd => hd

/-- A conditional has the property if the chain behind it has it. -/
theorem makes_conditionalStep {around : Surroundings} {room : Nat}
    (hblock : Makes I (Body S around room) (block limit around room))
    (hchain : ∀ inner, room = inner + 1 → ∀ place, Makes I
      (fun s => S around inner s ∧ ∃ place test yes no, s = .cond place test yes no) (conditional limit around inner place))
    (place : Coordinate) :
    Makes I (fun s => S around room s ∧ ∃ place test yes no, s = .cond place test yes no)
      (conditional limit around room place) := by
  rw [conditional]
  refine makes_advance.bind fun _ _ => ((makes_expression hU limit _).1 0).bind fun test htest => ?_
  refine hblock.bind fun yes hyes => (makes_accept _).bind fun found _ => ?_
  cases found with
  | false => exact .pure ⟨hS.cond htest hyes, _, _, _, _, rfl⟩
  | true =>
    refine makes_place.bind fun place' _ => makes_peekLexeme.bind fun l? _ => ?_
    split
    · cases room with
      | zero => exact makes_failHere rfl
      | succ room =>
        refine (hchain room rfl _).bind ?_
        rintro _ ⟨hno, place', test', yes', no', rfl⟩
        exact .pure ⟨hS.condChain htest hyes ⟨room, rfl, hno⟩, _, _, _, _, rfl⟩
    · exact hblock.bind fun no hno => .pure ⟨hS.condElse htest hyes hno, _, _, _, _, rfl⟩

theorem makes_conditional {around : Surroundings} {room : Nat}
    (hblock : ∀ inner ≤ room, Makes I (Body S around inner) (block limit around inner)) (place : Coordinate) :
    Makes I (fun s => S around room s ∧ ∃ place test yes no, s = .cond place test yes no)
      (conditional limit around room place) := by
  induction room generalizing place with
  | zero => exact makes_conditionalStep hU hS (hblock 0 (Nat.le_refl _)) (fun _ h => nomatch h) place
  | succ room ih =>
    refine makes_conditionalStep hU hS (hblock _ (Nat.le_refl _)) (fun inner h place => ?_) place
    cases h
    exact ih (fun inner hinner => hblock inner (Nat.le_succ_of_le hinner)) place

/-- All statements have the property. -/
theorem makes_statement (around : Surroundings) (room : Nat) :
    Makes I (S around room) (statement limit around room) := by
  induction room using Nat.strongRecOn generalizing around with
  | ind room ih =>
    have hblock : ∀ (around : Surroundings), ∀ inner ≤ room,
        Makes I (Body S around inner) (block limit around inner) := by
      intro around inner hinner
      refine makes_block fun r hr => ih r ?_ _
      omega
    have hexpr := (makes_expression hU limit room).1 0
    rw [statement]
    refine makes_place.bind fun place _ => makes_peekLexeme.bind fun l? hl => ?_
    have hend : ∀ s, S around room s → Makes I (S around room) (do discard (accept (.mark .semicolon)); return s) :=
      fun s hs => ((makes_accept _).map fun _ _ => trivial : Makes I (fun _ => True) _).bind fun _ _ => .pure hs
    split
    · exact (makes_failHere (by rfl) : Makes I (S around room) _).bind hend
    · exact (makes_function hS (hblock _ _ (Nat.le_refl _))).bind hend
    · refine makes_advance.bind fun _ _ => makes_expectName.bind fun name hname => (makes_expect _).bind fun _ _ => ?_
      exact hexpr.bind fun e he => hend _ (hS.bind hname he)
    · exact (makes_conditional hU hS (hblock around) _).bind fun s hs => hend s hs.1
    · refine makes_advance.bind fun _ _ => hexpr.bind fun test htest => ?_
      exact (hblock _ _ (Nat.le_refl _)).bind fun body hbody => hend _ (hS.whileLoop htest hbody)
    · refine makes_advance.bind fun _ _ => makes_expectName.bind fun name hname => (makes_expect _).bind fun _ _ => ?_
      refine hexpr.bind fun iterable hiterable => ?_
      exact (hblock _ _ (Nat.le_refl _)).bind fun body hbody => hend _ (hS.forEach hname hiterable hbody)
    · exact makes_advance.bind fun _ _ => (makes_returned hexpr).bind fun e he => hend _ (hS.giveBack he)
    · split
      · next hloop => exact makes_advance.bind fun _ _ => hend _ (hS.leave hloop)
      · exact (makes_failHere (by rfl) : Makes I (S around room) _).bind hend
    · split
      · next hloop => exact makes_advance.bind fun _ _ => hend _ (hS.again hloop)
      · exact (makes_failHere (by rfl) : Makes I (S around room) _).bind hend
    · exact (makes_personality.map fun es hes => hS.personality hes.1 hes.2).bind hend
    · exact ((hblock _ _ (Nat.le_refl _)).map fun body hbody => hS.block hbody).bind hend
    · exact (hexpr.map fun e he => hS.expr he).bind hend

/-- All statements of a program have the property, with all the room there is; else such tokens account for the
error. -/
theorem outcome_of_parse {ts : List Token} (hts : ∀ t ∈ ts, I t) :
    (∀ p, parse limit ts = .ok p → All (S ⟨false, false⟩ limit) p.statements) ∧
      ∀ e, parse limit ts = .error e → Blames I e := by
  have hprogram : Makes I (fun p : Program => All (S ⟨false, false⟩ limit) p.statements) (program limit) :=
    makes_get.bind fun _ _ => (makes_statements (makes_statement hU hS _ _) All.nil).bind fun _ hss => .pure hss
  have hmakes := hprogram ts hts
  have hparse : parse limit ts = (·.1) <$> program limit ts := rfl
  unfold MakesAt at hmakes
  rw [hparse]
  generalize program limit ts = outcome at hmakes ⊢
  cases outcome with
  | error e =>
    refine ⟨nofun, fun e' h => ?_⟩
    cases h
    exact hmakes
  | ok x =>
    refine ⟨fun p h => ?_, nofun⟩
    cases h
    exact hmakes.2

theorem of_parse {ts : List Token} (hts : ∀ t ∈ ts, I t) {p : Program} (h : parse limit ts = .ok p) :
    All (S ⟨false, false⟩ limit) p.statements := (outcome_of_parse hU hS hts).1 p h

end

end Parser

end Persona
