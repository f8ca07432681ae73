import Persona.Text.CaseTable

/-! Lower case of texts.

Two characters are not lowered one by one. The capital I with a dot becomes an i
and a combining dot. The capital sigma has two small forms, and takes the final
one at the end of a word: where the nearest character before it has a case and
the nearest after it has none, characters that are passed over left out. -/
namespace Persona.Text

def inRanges (ranges : List (Nat × Nat)) (c : Char) : Bool :=
  ranges.any fun (lo, hi) => lo ≤ c.toNat && c.toNat ≤ hi

def isCased (c : Char) : Bool := inRanges casedRanges c

def isIgnorable (c : Char) : Bool := inRanges ignorableRanges c

def CaseRun.holds (r : CaseRun) (c : Char) : Bool :=
  r.first ≤ c.toNat && c.toNat ≤ r.last && (c.toNat - r.first) % r.step == 0

/-- The lower case of a character by itself. -/
def lowerChar (c : Char) : Char :=
  match caseRuns.find? (·.holds c) with
  | some r => Char.ofNat (c.toNat + r.distance).toNat
  | none => c

/-- Whether the nearest character that is not passed over has a case. -/
def meetsCased (cs : List Char) : Bool := (cs.find? fun c => !isIgnorable c).any isCased

/-- Lowers the characters behind a text; `afterCased` is what `meetsCased` says of the
characters before. -/
def lowerOnto (text : String) (afterCased : Bool) : List Char → String
  | [] => text
  | c :: cs =>
    let text :=
      if c = 'Σ' then text.push (if afterCased && !meetsCased cs then 'ς' else 'σ')
      else if c = 'İ' then (text.push 'i').push '\u0307'
      else text.push (lowerChar c)
    lowerOnto text (if isIgnorable c then afterCased else isCased c) cs

def lower (s : String) : String := lowerOnto "" false s.toList

/-- Whether a text stands somewhere in another. -/
def occursIn (needle : List Char) : List Char → Bool
  | [] => needle.isEmpty
  | c :: cs => needle.isPrefixOf (c :: cs) || occursIn needle cs

end Persona.Text
