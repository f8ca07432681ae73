import Persona.Decimal.Binary64
import Persona.Service
import Persona.Text.Case

/-! A fixed body of knowledge and how it is searched. -/
namespace Persona

structure KnowledgeEntry where
  topic : String
  title : String
  summary : String
  confidence : Float
  verified : Bool

namespace KnowledgeEntry

/-- Whether the topic or the title mentions a text, in any letter case. -/
def mentions (e : KnowledgeEntry) (needle : String) : Bool :=
  let needle := (Text.lower needle).toList
  Text.occursIn needle (Text.lower e.topic).toList || Text.occursIn needle (Text.lower e.title).toList

def passes (e : KnowledgeEntry) (filters : SearchFilters) : Bool :=
  filters.minConfidence ≤ e.confidence && (e.verified || !filters.verifiedOnly)

/-- How an entry is shown: with a confidence between zero and one. -/
def row (e : KnowledgeEntry) : KnowledgeRow :=
  ⟨e.title, e.summary, Decimal.clamp 0.0 1.0 e.confidence, e.verified⟩

end KnowledgeEntry

/-- The entries that match, by falling confidence; of equal ones the earlier first. -/
def searchKnowledge (entries : List KnowledgeEntry) (topic : String) (filters : SearchFilters) :
    List KnowledgeRow :=
  let found := entries.filter fun e => e.mentions topic && e.passes filters
  let sorted := found.mergeSort fun a b =>
    Decimal.orderKey b.confidence ≤ Decimal.orderKey a.confidence
  (sorted.take filters.limit).map (·.row)

def Services.withKnowledge (s : Services) (entries : List KnowledgeEntry) : Services :=
  { s with search := fun _ topic filters => .ok (searchKnowledge entries topic filters) }

end Persona
