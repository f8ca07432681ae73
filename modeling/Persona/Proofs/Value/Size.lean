import Persona.Proofs.Syntax.Walk
import Persona.Proofs.Value.Hereditary

/-! How large values become.

What makes a value out of others looks first how large it will be: a sum, a repetition, a range,
an item more or a literal that would exceed the limits is a fault. Some results are as large as
what they show: the keys of a map, the rows that a search finds, the text of a value that is no
text. All other arrays and texts of a run are within the limits, or as long as what is written
out in the source or said by a service. -/
namespace Persona

open Effect (Keeps)

/-- A text in an answer that a service gives. -/
inductive Host.Answers (h : Host) : String → Prop
  | heard {before : List ServiceCall} {options : ListenOptions} {text : String} :
    h.services.listen before options = .ok text → Answers h text
  | title {before : List ServiceCall} {topic : String} {filters : SearchFilters} {rows : List KnowledgeRow}
    {row : KnowledgeRow} : h.services.search before topic filters = .ok rows → row ∈ rows → Answers h row.title
  | summary {before : List ServiceCall} {topic : String} {filters : SearchFilters} {rows : List KnowledgeRow}
    {row : KnowledgeRow} : h.services.search before topic filters = .ok rows → row ∈ rows → Answers h row.summary

namespace Value

/-- The names of kinds, of levels and of the columns of an answer have no more bytes, and neither
does a character. -/
def shortText : Nat := 10

/-- The value and all values inside it are of permitted size, where the texts of the source have
at most so many bytes. Bytes are counted up to the greatest machine word. -/
inductive Sized (h : Host) (longest : Nat) : Value → Prop
  | null : Sized h longest null
  | bool (b : Bool) : Sized h longest (bool b)
  | number (x : Float) : Sized h longest (number x)
  | function (f : Function) : Sized h longest (function f)
  | builtin (b : Builtin) : Sized h longest (builtin b)
  | string {s : String} : min s.utf8ByteSize Decimal.wordMax ≤ max h.limits.maxStringBytes longest →
    Sized h longest (string s)
  | short {s : String} : s.utf8ByteSize ≤ shortText → Sized h longest (string s)
  | answer {s : String} : h.Answers s → Sized h longest (string s)
  | text {v : Value} : Sized h longest v → v.string? = none → Sized h longest (string v.text)
  | array {items : Array Value} : (∀ v ∈ items, Sized h longest v) → items.size ≤ h.limits.maxArrayLength →
    Sized h longest (array items)
  | keys {entries : List (String × Value)} : Sized h longest (map entries) →
    Sized h longest (array (entries.toArray.map fun e => string e.1))
  | rows {before : List ServiceCall} {topic : String} {filters : SearchFilters} {rows : List KnowledgeRow} :
    h.services.search before topic filters = .ok rows →
    Sized h longest (array ((rows.take filters.limit).map KnowledgeRow.value).toArray)
  | map {entries : List (String × Value)} : (∀ e ∈ entries, Sized h longest (string e.1)) →
    (∀ e ∈ entries, Sized h longest e.2) → Sized h longest (map entries)

/-! ### Scalars -/

section
variable {a b v : Value}

end

/-! ### Sized values -/

variable {h : Host} {longest : Nat} {a b v : Value}

theorem sized_row {row : KnowledgeRow} (htitle : h.Answers row.title) (hsummary : h.Answers row.summary) :
    Sized h longest row.value := by
  refine .map (fun e he => ?_) fun e he => ?_
  · simp only [List.mem_cons, List.not_mem_nil, or_false] at he
    rcases he with rfl | rfl | rfl | rfl
    · exact .short (s := "confidence") (by decide)
    · exact .short (s := "summary") (by decide)
    · exact .short (s := "title") (by decide)
    · exact .short (s := "verified") (by decide)
  · simp only [List.mem_cons, List.not_mem_nil, or_false] at he
    rcases he with rfl | rfl | rfl | rfl
    · exact .number _
    · exact .answer hsummary
    · exact .answer htitle
    · exact .bool _

theorem Sized.item {items : Array Value} (hv : Sized h longest (.array items)) : ∀ v ∈ items, Sized h longest v := by
  cases hv with
  | array hitems _ => exact hitems
  | keys hmap =>
    intro v hv
    obtain ⟨e, he, rfl⟩ := Array.mem_map.1 hv
    cases hmap with
    | map hkeys _ => exact hkeys e (List.mem_toArray.1 he)
  | rows hrows =>
    intro v hv
    obtain ⟨row, hrow, rfl⟩ := List.mem_map.1 (List.mem_toArray.1 hv)
    have hmem := List.mem_of_mem_take hrow
    exact sized_row (.title hrows hmem) (.summary hrows hmem)

theorem Sized.entry {entries : List (String × Value)} (hv : Sized h longest (.map entries)) :
    ∀ e ∈ entries, Sized h longest (.string e.1) ∧ Sized h longest e.2 := by
  cases hv with
  | map hkeys hvalues => exact fun e he => ⟨hkeys e he, hvalues e he⟩

end Value

/-! ### Built-ins -/

namespace Action

variable {Q : α → Prop}

end Action

namespace Builtin

open Persona.Action
open Value (Sized)

variable {h : Host} {longest : Nat}

end Builtin

end Persona
