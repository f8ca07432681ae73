import Persona.Proofs.Syntax.Blame
import Persona.Proofs.Token.Literal

/-! Numbers, from the source to the tree.

The lexer takes the longest number that the grammar has where a digit is next, and takes nothing else for a number. So
no parser gets the text of a number that denotes nothing. -/
namespace Persona

open Lexer

namespace Lexer.IsLongest

variable {P : RegularExpression Char} {cs run run' : List Char}

/-- Two fronts of a text that are as long as each other are the same. -/
theorem unique (h : IsLongest P cs run) (h' : IsLongest P cs run') : run = run' := by
  have hlength : run.length = run'.length :=
    Nat.le_antisymm (h'.longest run h.mem h.front) (h.longest run' h'.mem h'.front)
  exact (List.prefix_of_prefix_length_le h.front h'.front (Nat.le_of_eq hlength)).eq_of_length hlength

end Lexer.IsLongest

theorem not_parted_of_glued {rest : List Char} (h : ∃ d ∈ rest.head?, isNamePart d = true ∨ d = '.') : ¬ Parted rest := by
  intro hparted
  obtain ⟨d, hd, hpart | rfl⟩ := h
  · rw [(parted_iff.1 hparted d hd).1] at hpart
    cases hpart
  · exact (parted_iff.1 hparted _ hd).2 rfl

/-- A parser of a source's tokens never complains of a number. -/
theorem fault_ne_invalidNumber {source : String} {ts : List Token} {limit : Nat} {e : SyntaxError}
    (hts : tokenize source = .ok ts) (he : parse limit ts = .error e) (text : String) : e.fault ≠ .invalidNumber text := by
  intro hfault
  obtain ⟨⟨t, ht, htext⟩, hnone⟩ := (Parser.blames_of_parse he).number text (congrArg SyntaxFault.number? hfault)
  have hsome := Decimal.isSome_parse? (mem_of_tokenize hts ht htext)
  rw [hnone] at hsome
  cases hsome

/-- Where a token starts with a digit there is a longest number. It is the token if no part of a name and no point is
behind it; else the source is in error there. No error of a parser is about a number. -/
theorem reads_longest_numeral (source : String) :
    (∀ ts cur c, Cursor.Faces source ts cur → c ∈ cur.rest.head? → isDigit c = true →
      (∃ run, IsLongest numeral cur.rest run) ∧ ∀ run, IsLongest numeral cur.rest run →
        ((∀ d ∈ (cur.skip run.length).rest.head?, isNamePart d = false ∧ d ≠ '.') →
          Cursor.Reads (.ofString source)
            (ts ++ [⟨.number (String.ofList run), cur.position, (cur.skip run.length).position⟩]) (cur.skip run.length)) ∧
        ((∃ d ∈ (cur.skip run.length).rest.head?, isNamePart d = true ∨ d = '.') →
          ∃ text, tokenize source = .error ⟨.invalidNumber text, cur.position⟩)) ∧
    ∀ ts limit e text, tokenize source = .ok ts → parse limit ts = .error e → e.fault ≠ .invalidNumber text := by
  refine ⟨fun ts cur c hfaces hc hdigit => ?_, fun ts limit e text hts he => fault_ne_invalidNumber hts he text⟩
  obtain ⟨cs, hrest⟩ := List.head?_eq_some_iff.1 hc
  have hlongest := isLongest_numberRun hdigit cs
  rw [hrest]
  refine ⟨⟨_, hlongest⟩, fun run hrun => ?_⟩
  obtain rfl := hlongest.unique hrun
  obtain ⟨hreads, herror⟩ := Cursor.number_of_faces hfaces hrest hdigit
  exact ⟨fun hparted => hreads (parted_iff.2 hparted), fun hglued => herror (not_parted_of_glued hglued)⟩

theorem reads_longest_numeral_exponent :
    let number := ⟨.number "1.5e+3", ⟨1, 5, 4⟩, ⟨1, 11, 10⟩⟩
    let tokens := [⟨.keyword .letKey, ⟨1, 1, 0⟩, ⟨1, 4, 3⟩⟩, number]
    Cursor.Reads (.ofString "let 1.5e+3") tokens ⟨⟨1, 11, 10⟩, []⟩ ∧
    (∃ text, tokenize "1.5.3" = .error ⟨.invalidNumber text, .start⟩) ∧
    tokenize "let 1.5e+3" = .ok tokens ∧
    ∃ e, parse 8 tokens = .error e ∧ e.fault ≠ .invalidNumber "1.5e+3" := by
  intro number tokens
  have hlet : Cursor.next (.ofString "let 1.5e+3") =
      (.token ⟨.keyword .letKey, ⟨1, 1, 0⟩, ⟨1, 4, 3⟩⟩, ⟨⟨1, 4, 3⟩, " 1.5e+3".toList⟩) := by cbv
  have hrun : IsLongest numeral "1.5e+3".toList "1.5e+3".toList := isLongest_numberRun rfl ".5e+3".toList
  have hrun' : IsLongest numeral "1.5.3".toList "1.5".toList := isLongest_numberRun rfl ".5.3".toList
  have hts : tokenize "let 1.5e+3" = .ok tokens := by cbv
  have he : parse 8 tokens = .error ⟨.expectedName (.number "1.5e+3"), some ⟨1, 5⟩⟩ := by cbv
  refine ⟨?_, ?_, hts, _, he, (reads_longest_numeral "let 1.5e+3").2 _ _ _ _ hts he⟩
  · obtain ⟨-, hnumber⟩ := (reads_longest_numeral "let 1.5e+3").1 _ ⟨⟨1, 5, 4⟩, "1.5e+3".toList⟩ '1'
      ⟨_, 1, .one hlet, by cbv, by cbv⟩ rfl rfl
    exact (hnumber _ hrun).1 fun d hd => by cases hd
  · obtain ⟨-, hnumber⟩ := (reads_longest_numeral "1.5.3").1 [] (.ofString "1.5.3") '1' ⟨_, 0, .done _, rfl, rfl⟩ rfl rfl
    exact (hnumber _ hrun').2 ⟨'.', rfl, .inr rfl⟩

end Persona
