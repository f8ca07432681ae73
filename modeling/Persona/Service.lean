/-! What a program can ask of the world outside: knowledge to search, and a voice to
speak with and to listen to. -/
namespace Persona

structure SearchFilters where
  limit : Nat := 3
  minConfidence : Float := 0.0
  verifiedOnly : Bool := false
deriving DecidableEq

structure KnowledgeRow where
  title : String
  summary : String
  confidence : Float
  verified : Bool
deriving DecidableEq

structure SpeakOptions where
  voice : Option String := none
  rate : Option Float := none
deriving DecidableEq

/-- A listener waits for an answer at most this long. -/
structure ListenOptions where
  prompt : Option String
  timeoutMs : Nat
deriving DecidableEq

inductive ServiceCall where
  | search (topic : String) (filters : SearchFilters)
  | speak (text : String) (options : SpeakOptions)
  | listen (options : ListenOptions)
deriving DecidableEq

/-- Each service answers a call, or refuses it with a message. The answer may depend on
all calls before it, of which the latest comes first. -/
structure Services where
  search : List ServiceCall → String → SearchFilters → Except String (List KnowledgeRow)
  speak : List ServiceCall → String → SpeakOptions → Except String Unit
  listen : List ServiceCall → ListenOptions → Except String String

namespace Services

/-- Nothing is known, nothing is heard. -/
def silent : Services := ⟨fun _ _ _ => .ok [], fun _ _ _ => .ok (), fun _ _ => .ok ""⟩

end Services

end Persona
