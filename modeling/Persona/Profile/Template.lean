import Persona.Profile

/-! The profiles that can be asked for by name. -/
namespace Persona

/-- A named profile: what it sets apart from the neutral one. -/
structure Template where
  name : String
  overrides : List (Trait × Float)

namespace Template

def all : List Template :=
  [⟨"analyst",
    [(.analyticalThinking, 0.95), (.thoroughness, 0.9), (.confidenceThreshold, 0.85), (.humor, 0.3),
     (.creativity, 0.5), (.verbosity, 0.6)]⟩,
   ⟨"creative",
    [(.creativity, 0.95), (.curiosity, 0.9), (.openness, 0.9), (.humor, 0.8), (.formality, 0.3),
     (.organization, 0.5)]⟩,
   ⟨"mentor",
    [(.empathy, 0.95), (.verbosity, 0.85), (.transparency, 0.9), (.humility, 0.85),
     (.reflection, 0.85), (.decisiveness, 0.55)]⟩,
   ⟨"explorer",
    [(.curiosity, 0.95), (.riskTolerance, 0.85), (.adaptability, 0.9), (.learningRate, 0.9),
     (.formality, 0.4)]⟩,
   ⟨"guardian",
    [(.riskTolerance, 0.2), (.consistency, 0.95), (.thoroughness, 0.9), (.confidenceThreshold, 0.9),
     (.transparency, 0.9), (.humor, 0.4)]⟩]

def find? (name : String) : Option Template := all.find? (·.name == name)

def profile (t : Template) : Profile :=
  t.overrides.foldl (fun p (t, value) => p.put t value) .default

end Template

def Profile.ofTemplate (name : String) : Except ProfileError Profile :=
  match Template.find? name with
  | some t => .ok t.profile
  | none => .error (.unknownTemplate name)

end Persona
