import Persona.Text.Blank
import Persona.Text.Quoted
import Persona.Token

/-! From source text to tokens.

Reading is in three steps. `gap` measures the blanks and comments before a
token; `munch` reads one lexeme, the longest that starts there, and tells how
many characters it took. Both look at characters alone. `Cursor.next` puts them
together and adds the places, which follow from the characters passed over.

`tokenize` runs the cursor to the end of the source. -/
namespace Persona

/-- Why a source is not a sequence of tokens. -/
inductive LexicalFault where
  | invalidChar (c : Char)
  | unterminatedString
  | unterminatedComment
  | invalidEscape (sequence : String)
  | invalidNumber (text : String)
deriving DecidableEq

structure LexicalError where
  fault : LexicalFault
  position : Position
deriving DecidableEq

def LexicalFault.message : LexicalFault → String
  | invalidChar c => s!"Invalid character '{c}'"
  | unterminatedString => "Unterminated string literal"
  | unterminatedComment => "Unterminated block comment"
  | invalidEscape s => s!"Invalid escape sequence '{s}'"
  | invalidNumber s => s!"Invalid number format '{s}'"

def LexicalError.message (e : LexicalError) : String := e.fault.message

/-- The message behind its place. -/
def LexicalError.text (e : LexicalError) : String :=
  s!"[{e.position.coordinate.text}] {e.message}"

namespace Lexer

/-! ### Character classes -/

def isDigit (c : Char) : Bool := '0' ≤ c && c ≤ '9'

def isNameStart (c : Char) : Bool :=
  ('a' ≤ c && c ≤ 'z') || ('A' ≤ c && c ≤ 'Z') || c == '_'

def isNamePart (c : Char) : Bool := isNameStart c || isDigit c

/-! ### Gaps -/

/-- What the reader stands in between two tokens. A block comment remembers how
many characters into the gap it opened. -/
inductive Gap where
  | blank
  | line
  | block (opened : Nat)

/-- The number of characters before the next token, and the start of a block
comment that never closes. -/
def gap : Gap → Nat → List Char → Nat × Option Nat
  | .blank, n, [] => (n, none)
  | .blank, n, '/' :: '/' :: cs => gap .line (n + 2) cs
  | .blank, n, '/' :: '*' :: cs => gap (.block n) (n + 2) cs
  | .blank, n, c :: cs => if Text.isBlank c then gap .blank (n + 1) cs else (n, none)
  | .line, n, [] => (n, none)
  | .line, n, c :: cs => gap (if c = '\n' then .blank else .line) (n + 1) cs
  | .block opened, n, [] => (n, some opened)
  | .block _, n, '*' :: '/' :: cs => gap .blank (n + 2) cs
  | .block opened, n, _ :: cs => gap (.block opened) (n + 1) cs

/-! ### Numbers

`digits ('.' digits)? ([eE] [+-]? digits)?` -/

def digitRun (cs : List Char) : List Char := cs.takeWhile isDigit

/-- A point and the digits after it; empty when none follows. -/
def fractionRun : List Char → List Char
  | '.' :: cs =>
    match digitRun cs with
    | [] => []
    | ds => '.' :: ds
  | _ => []

/-- The exponent: its letter, a sign if there is one, and its digits; empty when no
digit follows. -/
def exponentRun : List Char → List Char
  | e :: cs =>
    if e = 'e' ∨ e = 'E' then
      let sign := match cs with
        | '+' :: _ => ['+']
        | '-' :: _ => ['-']
        | _ => []
      match digitRun (cs.drop sign.length) with
      | [] => []
      | ds => e :: sign ++ ds
    else []
  | [] => []

/-- The longest number at the front. -/
def numberRun (cs : List Char) : List Char :=
  let whole := digitRun cs
  let fraction := fractionRun (cs.drop whole.length)
  whole ++ fraction ++ exponentRun (cs.drop (whole ++ fraction).length)

/-- Characters that may not follow a number. -/
def isGlued (c : Char) : Bool := isNamePart c || c == '.'

/-! ### Lexemes -/

/-- What was read and how many characters it took, the failed ones included. A
fault carries its distance from the start of the token. -/
structure Munch where
  result : Except (LexicalFault × Nat) Lexeme
  taken : Nat

/-- A number, or the characters up to where it goes wrong: a point with no digit
after it ends the attempt at the point. -/
def munchNumber (cs : List Char) : Munch :=
  let whole := digitRun cs
  match cs.drop whole.length, fractionRun (cs.drop whole.length) with
  | '.' :: _, [] => invalid (whole ++ ['.'])
  | _, _ =>
    let run := numberRun cs
    match (cs.drop run.length).takeWhile isGlued with
    | [] => ⟨.ok (.number (String.ofList run)), run.length⟩
    | tail => invalid (run ++ tail)
where
  invalid (text : List Char) : Munch :=
    ⟨.error (.invalidNumber (String.ofList text), 0), text.length⟩

/-- The rest of a string literal after `taken` characters; `text` is what was
denoted so far, last character first. -/
def munchString (delimiter : Char) : Nat → List Char → List Char → Munch
  | taken, _, [] => ⟨.error (.unterminatedString, 0), taken⟩
  | taken, text, c :: cs =>
    if c = delimiter then ⟨.ok (.string (String.ofList text.reverse)), taken + 1⟩
    else if c = '\\' then
      match cs with
      | [] => ⟨.error (.unterminatedString, 0), taken + 1⟩
      | d :: cs =>
        match Text.unescape? d with
        | some x => munchString delimiter (taken + 2) (x :: text) cs
        | none => ⟨.error (.invalidEscape (String.ofList ['\\', d]), taken), taken + 2⟩
    else munchString delimiter (taken + 1) (c :: text) cs

/-- A keyword or a name. -/
def munchWord (cs : List Char) : Munch :=
  let run := cs.takeWhile isNamePart
  let word := String.ofList run
  ⟨.ok (match Keyword.ofText? word with
    | some k => .keyword k
    | none => .name word), run.length⟩

/-- The mark that `c` and the character after it begin, and its length. -/
def markAt : Char → Option Char → Option (Mark × Nat)
  | '+', _ => some (.plus, 1)
  | '-', some '>' => some (.arrow, 2)
  | '-', _ => some (.minus, 1)
  | '*', some '*' => some (.starStar, 2)
  | '*', _ => some (.star, 1)
  | '/', _ => some (.slash, 1)
  | '%', _ => some (.percent, 1)
  | '=', some '=' => some (.equalEqual, 2)
  | '=', _ => some (.equal, 1)
  | '!', some '=' => some (.bangEqual, 2)
  | '!', _ => some (.bang, 1)
  | '<', some '=' => some (.lessEqual, 2)
  | '<', _ => some (.less, 1)
  | '>', some '=' => some (.greaterEqual, 2)
  | '>', _ => some (.greater, 1)
  | '&', some '&' => some (.ampAmp, 2)
  | '|', some '|' => some (.pipePipe, 2)
  | '(', _ => some (.leftParen, 1)
  | ')', _ => some (.rightParen, 1)
  | '{', _ => some (.leftBrace, 1)
  | '}', _ => some (.rightBrace, 1)
  | '[', _ => some (.leftBracket, 1)
  | ']', _ => some (.rightBracket, 1)
  | ',', _ => some (.comma, 1)
  | ':', _ => some (.colon, 1)
  | ';', _ => some (.semicolon, 1)
  | _, _ => none

/-- The lexeme that starts with `c`. -/
def munch (c : Char) (cs : List Char) : Munch :=
  if c = '"' ∨ c = '\'' then munchString c 1 [] cs
  else if isDigit c then munchNumber (c :: cs)
  else if isNameStart c then munchWord (c :: cs)
  else match markAt c cs.head? with
    | some (m, n) => ⟨.ok (.mark m), n⟩
    | none => ⟨.error (.invalidChar c, 0), 1⟩

end Lexer

/-- A place in a source and what is left of it. -/
structure Cursor where
  position : Position
  rest : List Char

namespace Cursor
open Lexer

def ofString (source : String) : Cursor := ⟨.start, source.toList⟩

/-- Passes over `n` characters. -/
def skip (cur : Cursor) (n : Nat) : Cursor :=
  ⟨cur.position.advanceAll (cur.rest.take n), cur.rest.drop n⟩

/-- What one step of reading gives: a token, the end of the source, or an error. -/
inductive Reading where
  | token (t : Token)
  | atEnd
  | error (e : LexicalError)

/-- The lexeme at the cursor, which has no gap before it. -/
def token (cur : Cursor) : Reading × Cursor :=
  match cur.rest with
  | [] => (.atEnd, cur)
  | c :: cs =>
    let m := munch c cs
    let after := cur.skip m.taken
    match m.result with
    | .ok lexeme => (.token ⟨lexeme, cur.position, after.position⟩, after)
    | .error (fault, back) => (.error ⟨fault, (cur.skip back).position⟩, after)

/-- The next token and the cursor behind it. -/
def next (cur : Cursor) : Reading × Cursor :=
  match gap .blank 0 cur.rest with
  | (n, some opened) => (.error ⟨.unterminatedComment, (cur.skip opened).position⟩, cur.skip n)
  | (n, none) => (cur.skip n).token

end Cursor

/-! ### A lexeme takes at least one character -/

namespace Lexer

private theorem length_takeWhile_pos {p : Char → Bool} {c : Char} {cs : List Char} (h : p c = true) :
    0 < ((c :: cs).takeWhile p).length := by
  simp [List.takeWhile, h]

private theorem munchString_taken (delimiter : Char) (taken : Nat) (text cs : List Char) :
    taken ≤ (munchString delimiter taken text cs).taken := by
  fun_induction munchString delimiter taken text cs <;> (try dsimp only) <;> omega

theorem munch_taken (c : Char) (cs : List Char) : 0 < (munch c cs).taken := by
  unfold munch
  split
  · exact munchString_taken c 1 [] cs
  split
  · next h =>
    have hw : 0 < (digitRun (c :: cs)).length := length_takeWhile_pos h
    simp only [munchNumber]
    split
    · simp [munchNumber.invalid]
    · have hr : 0 < (numberRun (c :: cs)).length := by
        simp only [numberRun, List.length_append]
        omega
      split
      · exact hr
      · simp only [munchNumber.invalid, List.length_append]
        omega
  split
  · next h => exact length_takeWhile_pos (by simp [isNamePart, h])
  split
  · next m n h =>
    unfold markAt at h
    split at h <;> simp_all <;> omega
  · exact Nat.one_pos

end Lexer

namespace Cursor

theorem skip_rest_length (cur : Cursor) (n : Nat) : (cur.skip n).rest.length = cur.rest.length - n := by
  simp [skip]

/-- A token leaves less to read. -/
theorem next_rest_lt {cur after : Cursor} {t : Token} (h : cur.next = (.token t, after)) :
    after.rest.length < cur.rest.length := by
  unfold next at h
  split at h
  · simp at h
  · next n _ =>
    unfold token at h
    split at h
    · simp at h
    · next c cs hcs =>
      have hlen : cur.rest.length - n = cs.length + 1 := by
        rw [← skip_rest_length, hcs, List.length_cons]
      dsimp only at h
      split at h
      · simp only [Prod.mk.injEq] at h
        rw [← h.2, skip_rest_length, skip_rest_length]
        have := Lexer.munch_taken c cs
        omega
      · simp at h

/-- The tokens from here on, and the error that ends them if one does. -/
def tokens (cur : Cursor) (before : Array Token) : Array Token × Option LexicalError :=
  match _h : cur.next with
  | (.atEnd, _) => (before, none)
  | (.error e, _) => (before, some e)
  | (.token t, after) => after.tokens (before.push t)
termination_by cur.rest.length
decreasing_by exact next_rest_lt _h

end Cursor

/-- The tokens of a source, or its first lexical error. -/
def tokenize (source : String) : Except LexicalError (List Token) :=
  match (Cursor.ofString source).tokens #[] with
  | (ts, none) => .ok ts.toList
  | (_, some e) => .error e

end Persona
