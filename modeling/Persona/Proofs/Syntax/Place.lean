import Persona.Proofs.Syntax.Walk
import Persona.Proofs.Token.Order
import Persona.Syntax.Parser

/-! The places of names.

A parser reads the tokens in their order and each of them once, and a name that an expression uses has
the place of its token. So the names that a program uses have the places of some of the tokens, in the
order of the source, and no two of them the same. -/
namespace Persona

/-! ### Places in a tree -/

namespace Expr

/-- The places of the names that an expression uses. -/
def places (e : Expr) : List Coordinate := e.uses.map (·.place)

variable {op : BinaryOp} {target : Identifier} {place : Coordinate} {e l r object key : Expr} {es : List Expr}

theorem filterMap_listParts (f : Expr → Option α) (es : List Expr) :
    (listParts es).filterMap f = es.flatMap fun e => e.parts.filterMap f := by
  rw [listParts_eq, List.filterMap_flatMap]

theorem filterMap_entryParts (f : Expr → Option α) (es : List (String × Expr)) :
    (entryParts es).filterMap f = es.flatMap fun e => e.2.parts.filterMap f := by
  rw [entryParts_eq, List.filterMap_flatMap]

theorem places_binary : (binary op l r).places = l.places ++ r.places := by
  have huses : (binary op l r).uses = l.uses ++ r.uses := List.filterMap_append
  exact (congrArg (List.map _) huses).trans List.map_append

theorem places_unary {op : UnaryOp} : (unary op e).places = e.places := rfl

theorem places_assign : (assign target e).places = e.places := rfl

theorem places_call : (call place e es).places = e.places ++ es.flatMap places := by
  have huses : (call place e es).uses = e.uses ++ es.flatMap uses :=
    List.filterMap_append.trans (congrArg (e.uses ++ ·) (filterMap_listParts _ es))
  exact (congrArg (List.map _) huses).trans (List.map_append.trans (congrArg (e.places ++ ·) List.map_flatMap))

theorem places_array : (array es).places = es.flatMap places := by
  have huses : (array es).uses = es.flatMap uses := filterMap_listParts _ es
  exact (congrArg (List.map _) huses).trans List.map_flatMap

theorem places_map {es : List (String × Expr)} : (map es).places = es.flatMap fun e => e.2.places := by
  have huses : (map es).uses = es.flatMap fun e => e.2.uses := filterMap_entryParts _ es
  exact (congrArg (List.map _) huses).trans List.map_flatMap

theorem places_index : (index object key).places = object.places ++ key.places := by
  have huses : (index object key).uses = object.uses ++ key.uses := List.filterMap_append
  exact (congrArg (List.map _) huses).trans List.map_append

end Expr

namespace Stmt

mutual

/-- The places of the names that a statement uses, in functions too. -/
def places : Stmt → List Coordinate
  | .cond _ test yes no => test.places ++ listPlaces yes ++ elsePlaces no
  | .whileLoop _ test body => test.places ++ listPlaces body
  | .forEach _ _ iterable body => iterable.places ++ listPlaces body
  | .block _ body => listPlaces body
  | .function ⟨_, _, _, _, body⟩ => listPlaces body
  | .expr _ e | .bind _ _ e => e.places
  | .giveBack _ e => e.elim [] Expr.places
  | .personality .. | .leave _ | .again _ => []
termination_by structural s => s

def listPlaces : List Stmt → List Coordinate
  | [] => []
  | s :: ss => places s ++ listPlaces ss
termination_by structural ss => ss

def elsePlaces : Option Stmt → List Coordinate
  | none => []
  | some s => places s
termination_by structural no => no

end

theorem listPlaces_eq (ss : List Stmt) : listPlaces ss = ss.flatMap places := by
  induction ss with
  | nil => rfl
  | cons s ss ih => rw [listPlaces, ih, List.flatMap_cons]

/-- The places of the names that a statement uses by itself. -/
def sitePlaces (s : Stmt) : List Coordinate := s.exprs.flatMap Expr.places

mutual

theorem places_eq : ∀ s : Stmt, places s = (deep s).flatMap sitePlaces
  | .cond _ test yes no => by
    rw [places, deep, List.flatMap_cons, List.flatMap_append, listPlaces_deep yes, elsePlaces_deep no]
    simp [sitePlaces, exprs]
  | .whileLoop _ test body | .forEach _ _ test body => by
    rw [places, deep, List.flatMap_cons, listPlaces_deep body]
    simp [sitePlaces, exprs]
  | .block _ body | .function ⟨_, _, _, _, body⟩ => by
    rw [places, deep, List.flatMap_cons, listPlaces_deep body]
    rfl
  | .giveBack _ none | .personality .. | .leave _ | .again _ => rfl
  | .giveBack _ (some e) | .expr _ e | .bind _ _ e => by
    simp [places, deep, sitePlaces, exprs]
termination_by structural s => s

theorem listPlaces_deep : ∀ ss : List Stmt, listPlaces ss = (deepList ss).flatMap sitePlaces
  | [] => rfl
  | s :: rest => by rw [listPlaces, deepList, List.flatMap_append, places_eq s, listPlaces_deep rest]
termination_by structural ss => ss

theorem elsePlaces_deep : ∀ no : Option Stmt, elsePlaces no = (deepElse no).flatMap sitePlaces
  | none => rfl
  | some s => places_eq s
termination_by structural no => no

end

theorem sitePlaces_ownList (ss : List Stmt) : (ownList ss).flatMap sitePlaces = (uses ss).map (·.place) := by
  rw [uses, List.map_flatMap]
  refine congrArg (List.flatMap · _) (funext fun s => ?_)
  rw [List.map_flatMap]
  rfl

/-- The names are used outside of functions or in the body of one of them. -/
theorem listPlaces_perm (ss : List Stmt) : (listPlaces ss).Perm
    ((uses ss).map (·.place) ++ (functions ss).flatMap fun d => (uses d.body).map (·.place)) := by
  have hall := (deepList_perm ss).flatMap_right sitePlaces
  rw [← listPlaces_deep, List.flatMap_append, sitePlaces_ownList] at hall
  have hbodies : (bodies (deepList ss)).flatMap sitePlaces =
      (functions ss).flatMap fun d => (uses d.body).map (·.place) := by
    show ((functions ss).flatMap fun d => ownList d.body).flatMap sitePlaces = _
    rw [List.flatMap_assoc]
    exact congrArg (List.flatMap · _) (funext fun d => sitePlaces_ownList d.body)
  rwa [hbodies] at hall

end Stmt

/-! ### Parsers -/

namespace Parser

/-- Where the tokens start. -/
def starts (ts : List Token) : List Coordinate := ts.map (·.start.coordinate)

/-- As long as the places `x` and those of the tokens are among `source` in order, so are the places of
what the parser gives and those of the tokens that it leaves. -/
def Stands (source x : List Coordinate) (p : Parser α) (f : α → List Coordinate) : Prop :=
  ∀ ts a ts', (x ++ starts ts).Sublist source → p ts = .ok (a, ts') → (f a ++ starts ts').Sublist source

variable {source x y : List Coordinate} {α β : Type} {f : α → List Coordinate} {g : β → List Coordinate}

namespace Stands

variable {p : Parser α} {k : α → Parser β}

theorem pure {a : α} (ha : f a = x) : Stands source x (pure a) f := by
  intro ts b ts' hts h
  cases h
  exact ha ▸ hts

theorem throw (e : SyntaxError) : Stands source x (throw e) f := fun _ _ _ _ h => nomatch h

theorem bind (hp : Stands source x p f) (hk : ∀ a, Stands source (f a) (k a) g) : Stands source x (p >>= k) g := by
  intro ts b ts' hts h
  have hbind : (p >>= k) ts = (p ts >>= fun r => k r.1 r.2) := rfl
  rw [hbind] at h
  cases hp' : p ts with
  | error e =>
    rw [hp'] at h
    cases h
  | ok r =>
    rw [hp'] at h
    exact hk r.1 r.2 b ts' (hp ts r.1 r.2 hts hp') h

theorem of_sublist (hp : Stands source y p f) (hxy : y.Sublist x) : Stands source x p f :=
  fun ts a ts' hts h => hp ts a ts' ((hxy.append_right _).trans hts) h

theorem map {m : α → β} (hp : Stands source x p f) (hm : ∀ a, g (m a) = f a) :
    Stands source x (m <$> p) g := by
  rw [map_eq_pure_bind]
  exact hp.bind fun a => .pure (hm a)

end Stands

/-! ### Single tokens -/

/-- The parser gives nothing that has a place. -/
def Bare (p : Parser α) : Prop := ∀ source x, Stands source x p fun _ => x

theorem Bare.bind {p : Parser α} {k : α → Parser β} (hp : Bare p) (hk : ∀ a, Bare (k a)) : Bare (p >>= k) :=
  fun source x => (hp source x).bind fun a => hk a source x

theorem Bare.pure (a : α) : Bare (pure a) := fun _ _ => .pure rfl

theorem Bare.map {m : α → β} {p : Parser α} (hp : Bare p) : Bare (m <$> p) :=
  fun source x => (hp source x).map fun _ => rfl

theorem bare_look {look : Parser α} {m : List Token → α} (hlook : ∀ ts, look ts = .ok (m ts, ts)) : Bare look := by
  intro source x ts a ts' hts h
  rw [hlook] at h
  cases h
  exact hts

theorem bare_peek : Bare peek := bare_look fun _ => rfl

theorem bare_peekLexeme : Bare peekLexeme := bare_look fun _ => rfl

theorem bare_here : Bare here := bare_look fun _ => rfl

theorem bare_get : Bare (get : Parser (List Token)) := bare_look fun _ => rfl

/-- The same, where this is the next token. -/
def StandsAt (t : Token) (source x : List Coordinate) (p : Parser α) (f : α → List Coordinate) : Prop :=
  ∀ ts a ts', (x ++ starts (t :: ts)).Sublist source → p (t :: ts) = .ok (a, ts') → (f a ++ starts ts').Sublist source

theorem Stands.at {p : Parser α} (hp : Stands source x p f) (t : Token) : StandsAt t source x p f :=
  fun ts => hp (t :: ts)

theorem stands_peek {k : Option Token → Parser β} (hnone : Stands source x (k none) g)
    (hsome : ∀ t, StandsAt t source x (k (some t)) g) : Stands source x (peek >>= k) g := by
  intro ts b ts' hts h
  cases ts with
  | nil => exact hnone [] b ts' hts h
  | cons t ts => exact hsome t ts b ts' hts h

theorem bare_advance : Bare advance := by
  intro source x ts a ts' hts h
  cases h
  refine (List.Sublist.append_left ?_ _).trans hts
  exact (List.tail_sublist ts).map _

theorem stands_failHere (fault : SyntaxFault) : Stands source x (failHere fault) f :=
  (bare_get _ _).bind fun _ => .throw _

theorem bare_failHere (fault : SyntaxFault) : Bare (failHere fault : Parser α) := fun _ _ => stands_failHere _

theorem stands_failAt (place : Coordinate) (fault : SyntaxFault) : Stands source x (failAt place fault) f := .throw _

theorem bare_accept (l : Lexeme) : Bare (accept l) := by
  refine bare_peekLexeme.bind fun _ => ?_
  split
  · exact bare_advance.bind fun _ => .pure _
  · exact .pure _

theorem bare_expect (l : Lexeme) : Bare (expect l) := by
  refine bare_peekLexeme.bind fun _ => ?_
  split
  · exact bare_failHere _
  · split
    · exact bare_advance
    · exact bare_failHere _

theorem bare_expectClosing (m : Mark) (missing : SyntaxFault) : Bare (expectClosing m missing) := by
  refine (bare_accept _).bind fun found => ?_
  cases found with
  | true => exact .pure _
  | false => exact bare_failHere _

theorem bare_expectName : Bare expectName := by
  refine bare_peekLexeme.bind fun _ => ?_
  split
  · exact bare_failHere _
  · exact bare_advance.bind fun _ => .pure _
  · exact bare_failHere _

theorem bare_expectType : Bare expectType := by
  refine bare_peekLexeme.bind fun _ => ?_
  split
  · exact bare_advance.bind fun _ => .pure _
  · exact bare_advance.bind fun _ => .pure _
  · exact bare_expectName

theorem bare_numberValue (text : String) : Bare (numberValue text) := by
  unfold numberValue
  split
  · exact bare_advance.bind fun _ => .pure _
  · exact bare_failHere _

/-! ### Rows -/

section
variable {item : Parser α} {close : Mark}

theorem append_reverse_cons {before : List α} (hy : y = x ++ before.reverse.flatMap f) (a : α) :
    y ++ f a = x ++ (a :: before).reverse.flatMap f := by
  simp [hy]

theorem stands_separated (hitem : ∀ x, Stands source x item fun a => x ++ f a) {bound : List Token} {before : List α}
    (hy : y = x ++ before.reverse.flatMap f) :
    Stands source y (separated close item bound before) fun as => x ++ as.flatMap f := by
  induction bound generalizing before y with
  | nil => exact .pure hy.symm
  | cons _ bound ih =>
    refine (bare_peekLexeme _ _).bind fun _ => ?_
    split
    · exact .pure hy.symm
    · split
      · exact .pure hy.symm
      · refine (hitem _).bind fun a => (bare_accept _ _ _).bind fun comma => ?_
        cases comma with
        | true => exact ih (append_reverse_cons hy a)
        | false => exact .pure (append_reverse_cons hy a).symm

theorem stands_row (hitem : ∀ x, Stands source x item fun a => x ++ f a) (missing : SyntaxFault) (x : List Coordinate) :
    Stands source x (row close missing item) fun as => x ++ as.flatMap f := by
  refine (bare_get _ _).bind fun bound => (stands_separated hitem (List.append_nil x).symm).bind fun _ => ?_
  exact (bare_expectClosing _ _ _ _).bind fun _ => .pure rfl

theorem stands_members (hitem : ∀ x, Stands source x item fun a => x ++ f a) {bound : List Token} {before : List α}
    (hy : y = x ++ before.reverse.flatMap f) :
    Stands source y (members close item bound before) fun as => x ++ as.flatMap f := by
  induction bound generalizing before y with
  | nil => exact (hitem _).bind fun a => .pure (append_reverse_cons hy a).symm
  | cons _ bound ih =>
    refine (bare_peekLexeme _ _).bind fun _ => ?_
    split
    · exact .pure hy.symm
    · refine (hitem _).bind fun a => (bare_accept _ _ _).bind fun comma => ?_
      cases comma with
      | true => exact ih (append_reverse_cons hy a)
      | false => exact .pure (append_reverse_cons hy a).symm

theorem stands_body (hitem : ∀ x, Stands source x item fun a => x ++ f a) (missing : SyntaxFault) (x : List Coordinate) :
    Stands source x (body close missing item) fun as => x ++ as.flatMap f := by
  refine (bare_get _ _).bind fun bound => (stands_members hitem (List.append_nil x).symm).bind fun _ => ?_
  exact (bare_expectClosing _ _ _ _).bind fun _ => .pure rfl

theorem bare_body (hitem : Bare item) (missing : SyntaxFault) : Bare (body close missing item) := by
  intro source x
  have hnothing : ∀ x, Stands source x item fun a => x ++ (fun _ => []) a := by
    intro x
    simpa using hitem source x
  have hnil : ∀ as : List α, as.flatMap (fun _ => ([] : List Coordinate)) = [] :=
    fun as => List.flatMap_eq_nil_iff.2 fun _ _ => rfl
  have hall := @stands_body source α _ item close hnothing missing x
  simpa only [hnil, List.append_nil] using hall

end

theorem stands_statements {item : Parser Stmt} {f : Stmt → List Coordinate}
    (hitem : ∀ x, Stands source x item fun s => x ++ f s) {closing : Bool} {bound : List Token} {before : List Stmt}
    (hy : y = x ++ before.reverse.flatMap f) :
    Stands source y (statements item closing bound before) fun ss => x ++ ss.flatMap f := by
  induction bound generalizing before y with
  | nil => exact .pure hy.symm
  | cons _ bound ih =>
    refine (bare_peekLexeme _ _).bind fun _ => ?_
    split
    · exact .pure hy.symm
    · exact (bare_advance _ _).bind fun _ => ih hy
    · split
      · exact .pure hy.symm
      · exact (hitem _).bind fun s => ih (append_reverse_cons hy s)

/-! ### Expressions -/

/-- What reads an expression takes the names of the expression. -/
def Names (source : List Coordinate) (p : Parser Expr) : Prop := ∀ x, Stands source x p fun e => x ++ e.places

section
variable {expr : Parser Expr}

theorem stands_mapEntry (hexpr : Names source expr) (x : List Coordinate) :
    Stands source x (mapEntry expr) fun e => x ++ e.2.places := by
  have hvalue : ∀ key : String, Stands source x (do expect (.mark .colon); return (key, ← expr)) fun e => x ++ e.2.places :=
    fun key => (bare_expect _ _ _).bind fun _ => (hexpr x).bind fun e => .pure rfl
  refine (bare_peekLexeme _ _).bind fun _ => ?_
  split
  · exact (bare_advance _ _).bind fun _ => hvalue _
  · exact (bare_advance _ _).bind fun _ => hvalue _
  · exact (stands_failHere _).bind fun key => hvalue key
  · exact (stands_failHere _).bind fun key => hvalue key

theorem stands_literal (l : Literal) :
    Stands source x (pure (.literal l) : Parser Expr) fun e => x ++ e.places :=
  .pure (List.append_nil x)

/-- A name that is read has the place of its token. -/
theorem names_base (hexpr : Names source expr) : Names source (base expr) := by
  intro x
  refine stands_peek (stands_failHere _) fun t => ?_
  dsimp only
  split
  · exact ((bare_numberValue _ _ _).bind fun _ => stands_literal _).at t
  · exact ((bare_advance _ _).bind fun _ => stands_literal _).at t
  · exact ((bare_advance _ _).bind fun _ => stands_literal _).at t
  · exact ((bare_advance _ _).bind fun _ => stands_literal _).at t
  · exact ((bare_advance _ _).bind fun _ => stands_literal _).at t
  · intro ts e ts' hts h
    cases h
    exact (List.append_assoc ..).symm ▸ hts
  · refine ((bare_advance _ _).bind fun _ => (hexpr x).bind fun e => ?_).at t
    exact (bare_expectClosing _ _ _ _).bind fun _ => .pure rfl
  · refine ((bare_advance _ _).bind fun _ => (stands_row hexpr _ x).bind fun es => .pure ?_).at t
    rw [Expr.places_array]
  · refine ((bare_advance _ _).bind fun _ => (stands_body (stands_mapEntry hexpr) _ x).bind fun es => .pure ?_).at t
    rw [Expr.places_map]
  · exact (stands_failHere _).at t

theorem stands_postfixes (hexpr : Names source expr) {place : Coordinate} {bound : List Token} {e : Expr} :
    Stands source (x ++ e.places) (postfixes expr place bound e) fun e => x ++ e.places := by
  induction bound generalizing e with
  | nil => exact .pure rfl
  | cons _ bound ih =>
    refine (bare_peekLexeme _ _).bind fun _ => ?_
    split
    · refine (bare_advance _ _).bind fun _ => (stands_row hexpr _ _).bind fun es => ?_
      rw [List.append_assoc, ← Expr.places_call]
      exact ih
    · refine (bare_advance _ _).bind fun _ => (hexpr _).bind fun key => (bare_expectClosing _ _ _ _).bind fun _ => ?_
      rw [List.append_assoc, ← Expr.places_index]
      exact ih
    · exact .pure rfl

theorem names_primary (hexpr : Names source expr) : Names source (primary expr) := fun x =>
  (bare_here _ _).bind fun _ => (names_base hexpr x).bind fun _ => (bare_get _ _).bind fun _ => stands_postfixes hexpr

theorem stands_operators {operand : Nat → Parser Expr} (hoperand : ∀ minimum, Names source (operand minimum))
    {minimum : Nat} {bound : List Token} {e : Expr} :
    Stands source (x ++ e.places) (operators operand minimum bound e) fun e => x ++ e.places := by
  induction bound generalizing e with
  | nil => exact .pure rfl
  | cons _ bound ih =>
    refine (bare_peekLexeme _ _).bind fun _ => ?_
    split
    · exact .pure rfl
    · split
      · exact .pure rfl
      · refine (bare_here _ _).bind fun place => (bare_advance _ _).bind fun _ => (hoperand _ _).bind fun r => ?_
        rw [List.append_assoc]
        split
        · rw [← Expr.places_binary]
          exact ih
        · -- the target is no use of its name
          refine ih.of_sublist (List.Sublist.append_left ?_ _)
          rw [Expr.places_assign]
          exact List.sublist_append_right ..
        · exact stands_failAt _ _

end

theorem names_unary {limit room : Nat} (hexpr : Names source (expression limit room 0))
    (hoperand : Names source (operand limit room)) : Names source (unary limit room) := by
  intro x
  have hsign : ∀ op, Stands source x (do return .unary op (← operand limit room)) fun e : Expr => x ++ e.places := by
    refine fun op => (hoperand x).bind fun e => .pure ?_
    rw [Expr.places_unary]
  rw [unary]
  refine (bare_peekLexeme _ _).bind fun _ => ?_
  split
  · exact hsign _
  · exact hsign _
  · exact names_primary hexpr x

theorem names_expression (limit room : Nat) :
    (∀ minimum, Names source (expression limit room minimum)) ∧ Names source (unary limit room) := by
  induction room with
  | zero =>
    have hexpr : ∀ minimum, Names source (expression limit 0 minimum) := by
      intro minimum x
      rw [expression]
      exact stands_failHere _
    refine ⟨hexpr, names_unary (hexpr 0) fun x => ?_⟩
    rw [operand]
    exact (bare_advance _ _).bind fun _ => stands_failHere _
  | succ room ih =>
    obtain ⟨hoperand, hunary⟩ := ih
    have hexpr : ∀ minimum, Names source (expression limit (room + 1) minimum) := by
      intro minimum x
      rw [expression]
      exact (hunary x).bind fun _ => (bare_get _ _).bind fun _ => stands_operators hoperand
    refine ⟨hexpr, names_unary (hexpr 0) fun x => ?_⟩
    rw [operand]
    exact (bare_advance _ _).bind fun _ => hunary x

/-! ### Statements -/

theorem bare_param : Bare param := by
  refine bare_expectName.bind fun _ => (bare_accept _).bind fun colon => ?_
  cases colon with
  | true => exact bare_expectType.map.bind fun _ => .pure _
  | false => exact .pure _

theorem bare_traitEntry : Bare traitEntry := by
  have hvalue : Bare traitValue := by
    refine (bare_accept _).bind fun _ => bare_peekLexeme.bind fun _ => ?_
    split
    · exact (bare_numberValue _).bind fun _ => .pure _
    · exact bare_failHere _
    · exact bare_failHere _
  refine bare_here.bind fun _ => bare_expectName.bind fun _ => ?_
  split
  · exact fun _ _ => stands_failAt _ _
  · exact (bare_expect _).bind fun _ => hvalue.bind fun _ => .pure _

theorem bare_personality (around : Surroundings) : Bare (personality around) := by
  have hentries : Bare (do advance; expect (.mark .leftBrace); body .rightBrace .missingBrace traitEntry) :=
    bare_advance.bind fun _ => (bare_expect _).bind fun _ => bare_body bare_traitEntry _
  unfold personality
  split
  · exact (bare_failHere _).bind fun _ => hentries
  · exact hentries

/-- What reads a block takes the names of its statements. -/
def BlockNames (source : List Coordinate) (p : Parser (List Stmt)) : Prop :=
  ∀ x, Stands source x p fun ss => x ++ Stmt.listPlaces ss

/-- What reads a statement takes the names of the statement. -/
def StmtNames (source : List Coordinate) (p : Parser Stmt) : Prop := ∀ x, Stands source x p fun s => x ++ s.places

section
variable {limit : Nat}

theorem names_returned {expr : Parser Expr} (hexpr : Names source expr) (line : Nat) (x : List Coordinate) :
    Stands source x (returned expr line) fun e => x ++ e.elim [] Expr.places := by
  refine (bare_peek _ _).bind fun _ => ?_
  split
  · split
    · exact (hexpr x).map fun _ => rfl
    · exact .pure (List.append_nil x)
  · exact .pure (List.append_nil x)

theorem names_block {around : Surroundings} {room : Nat}
    (hstatement : ∀ inner, room = inner + 1 → StmtNames source (statement limit ⟨true, around.inLoop⟩ inner)) :
    BlockNames source (block limit around room) := by
  intro x
  cases room with
  | zero =>
    rw [block]
    exact (bare_expect _ _ _).bind fun _ => stands_failHere _
  | succ room =>
    rw [block]
    refine (bare_expect _ _ _).bind fun _ => (bare_get _ _).bind fun bound => ?_
    refine (stands_statements (hstatement room rfl) (List.append_nil x).symm).bind fun ss => ?_
    exact (bare_expectClosing _ _ _ _).bind fun _ => .pure (by rw [Stmt.listPlaces_eq])

theorem names_function {body : Parser (List Stmt)} (hbody : BlockNames source body) (place : Coordinate) :
    StmtNames source (Stmt.function <$> function body place) := by
  intro x
  have hdecl : Stands source x (function body place) fun d => x ++ Stmt.listPlaces d.body := by
    refine (bare_advance _ _).bind fun _ => (bare_expectName _ _).bind fun _ => (bare_expect _ _ _).bind fun _ => ?_
    refine (bare_body bare_param _ _ _).bind fun params => (bare_accept _ _ _).bind fun arrow => ?_
    have hrest : ∀ name returnType, Stands source x (do return ⟨place, name, params, returnType, ← body⟩)
        fun d : FunctionDecl => x ++ Stmt.listPlaces d.body := fun _ _ => (hbody x).bind fun _ => .pure rfl
    cases arrow with
    | true => exact (bare_expectType.map _ _).bind fun _ => hrest _ _
    | false => exact hrest _ none
  exact hdecl.map fun ⟨_, _, _, _, _⟩ => rfl

/-- A conditional takes the names of its own, and leaves the chain behind it to the next one. -/
theorem names_conditionalStep {around : Surroundings} {room : Nat} (hblock : BlockNames source (block limit around room))
    (hchain : ∀ inner, room = inner + 1 → ∀ place, StmtNames source (conditional limit around inner place))
    (place : Coordinate) : StmtNames source (conditional limit around room place) := by
  intro x
  rw [conditional]
  refine (bare_advance _ _).bind fun _ => ((names_expression limit _).1 0 x).bind fun test => ?_
  refine (hblock _).bind fun yes => (bare_accept _ _ _).bind fun found => ?_
  cases found with
  | false => exact .pure (by simp [Stmt.places, Stmt.elsePlaces])
  | true =>
    refine (bare_here _ _).bind fun place' => (bare_peekLexeme _ _).bind fun _ => ?_
    split
    · cases room with
      | zero => exact stands_failHere _
      | succ room => exact (hchain room rfl _ _).bind fun no => .pure (by simp [Stmt.places, Stmt.elsePlaces])
    · exact (hblock _).bind fun no => .pure (by simp [Stmt.places, Stmt.elsePlaces])

theorem names_conditional {around : Surroundings} {room : Nat}
    (hblock : ∀ inner ≤ room, BlockNames source (block limit around inner)) (place : Coordinate) :
    StmtNames source (conditional limit around room place) := by
  induction room generalizing place with
  | zero => exact names_conditionalStep (hblock 0 (Nat.le_refl _)) (fun _ h => nomatch h) place
  | succ room ih =>
    refine names_conditionalStep (hblock _ (Nat.le_refl _)) (fun inner h place => ?_) place
    cases h
    exact ih (fun inner hinner => hblock inner (Nat.le_succ_of_le hinner)) place

theorem names_statement (around : Surroundings) (room : Nat) : StmtNames source (statement limit around room) := by
  induction room using Nat.strongRecOn generalizing around with
  | ind room ih =>
    have hblock : ∀ (around : Surroundings), ∀ inner ≤ room, BlockNames source (block limit around inner) := by
      intro around inner hinner
      refine names_block fun r hr => ih r ?_ _
      omega
    have hhere := fun around => hblock around room (Nat.le_refl _)
    have hexpr : Names source (expression limit room 0) := (names_expression limit room).1 0
    intro x
    rw [statement]
    refine (bare_here _ _).bind fun place => (bare_peekLexeme _ _).bind fun _ => ?_
    have hend : ∀ s : Stmt, Stands source (x ++ s.places) (do discard (accept (.mark .semicolon)); return s)
        fun s => x ++ s.places := fun s => ((bare_accept _).map _ _).bind fun _ => .pure rfl
    have hbare : ∀ s : Stmt, s.places = [] → Stands source x (do discard (accept (.mark .semicolon)); return s)
        fun s => x ++ s.places := by
      intro s hs
      simpa only [hs, List.append_nil] using hend s
    split
    · exact (stands_failHere _).bind hend
    · exact (names_function (hhere _) place x).bind hend
    · refine (bare_advance _ _).bind fun _ => (bare_expectName _ _).bind fun name => (bare_expect _ _ _).bind fun _ => ?_
      exact (hexpr x).bind fun e => hend (.bind place name e)
    · exact (names_conditional (hblock around) place x).bind hend
    · refine (bare_advance _ _).bind fun _ => (hexpr x).bind fun test => (hhere _ _).bind fun body => ?_
      rw [List.append_assoc]
      exact hend (.whileLoop place test body)
    · refine (bare_advance _ _).bind fun _ => (bare_expectName _ _).bind fun name => (bare_expect _ _ _).bind fun _ => ?_
      refine (hexpr x).bind fun iterable => (hhere _ _).bind fun body => ?_
      rw [List.append_assoc]
      exact hend (.forEach place name iterable body)
    · exact (bare_advance _ _).bind fun _ => (names_returned hexpr _ x).bind fun e => hend (.giveBack place e)
    · split
      · exact (bare_advance _ _).bind fun _ => hbare (.leave place) rfl
      · exact (stands_failHere _).bind hend
    · split
      · exact (bare_advance _ _).bind fun _ => hbare (.again place) rfl
      · exact (stands_failHere _).bind hend
    · exact ((bare_personality around source x).map (g := fun s : Stmt => x ++ s.places)
        (m := Stmt.personality place) fun _ => List.append_nil x).bind hend
    · exact ((hhere _ x).map (g := fun s : Stmt => x ++ s.places) fun _ => rfl).bind hend
    · exact ((hexpr x).map (g := fun s : Stmt => x ++ s.places) fun _ => rfl).bind hend

end

/-- What stands in the statements of a program stands at tokens of its source, each at one of its own. -/
theorem flatMap_sublist_of_parse {limit : Nat} {f : Stmt → List Coordinate}
    (hitem : ∀ source x, Stands source x (statement limit ⟨false, false⟩ limit) fun s => x ++ f s) {ts : List Token}
    {p : Program} (h : parse limit ts = .ok p) : (p.statements.flatMap f).Sublist (starts ts) := by
  have hprogram : Stands (starts ts) [] (program limit) fun p => p.statements.flatMap f := by
    refine (bare_get _ _).bind fun _ => ?_
    exact (stands_statements (hitem (starts ts)) (List.append_nil []).symm).bind fun ss => .pure rfl
  unfold parse at h
  cases hp : (program limit).run ts with
  | error e =>
    rw [hp] at h
    cases h
  | ok x =>
    rw [hp] at h
    cases h
    exact (List.sublist_append_left ..).trans (hprogram ts x.1 x.2 (List.Sublist.refl _) hp)

end Parser

/-- The names that a program uses stand at tokens of its source, each at one of its own. -/
theorem places_sublist_of_parse {limit : Nat} {ts : List Token} {p : Program} (h : parse limit ts = .ok p) :
    (Stmt.listPlaces p.statements).Sublist (ts.map (·.start.coordinate)) := by
  rw [Stmt.listPlaces_eq]
  exact Parser.flatMap_sublist_of_parse (fun _ => Parser.names_statement _ _) h

/-- No two names that a program uses stand at the same place. -/
theorem places_nodup_of_parse {source : String} {limit : Nat} {ts : List Token} {p : Program}
    (htokens : tokenize source = .ok ts) (h : parse limit ts = .ok p) : (Stmt.listPlaces p.statements).Nodup :=
  (ordered_of_tokenize htokens).nodup.sublist (places_sublist_of_parse h)

end Persona
