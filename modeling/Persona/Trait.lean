/-! The twenty-four traits of a personality, in their fixed order. -/
namespace Persona

inductive Category where
  | cognitive | social | decision | workStyle | learning | reflective
deriving DecidableEq

def Category.name : Category → String
  | cognitive => "cognitive"
  | social => "social"
  | decision => "decision"
  | workStyle => "work_style"
  | learning => "learning"
  | reflective => "meta"

inductive Trait where
  | curiosity | creativity | analyticalThinking | abstractReasoning
  | empathy | humor | formality | verbosity
  | decisiveness | riskTolerance | confidenceThreshold | intuition
  | thoroughness | efficiency | persistence | organization
  | adaptability | learningRate | openness | reflection
  | selfAwareness | transparency | consistency | humility
deriving DecidableEq

namespace Trait

/-- Four of each category. -/
def all : List Trait :=
  [curiosity, creativity, analyticalThinking, abstractReasoning,
   empathy, humor, formality, verbosity,
   decisiveness, riskTolerance, confidenceThreshold, intuition,
   thoroughness, efficiency, persistence, organization,
   adaptability, learningRate, openness, reflection,
   selfAwareness, transparency, consistency, humility]

/-- The place in the order. -/
def index (t : Trait) : Fin 24 := ⟨t.ctorIdx, by cases t <;> decide⟩

def ofIndex? (i : Nat) : Option Trait := all[i]?

def name : Trait → String
  | curiosity => "curiosity"
  | creativity => "creativity"
  | analyticalThinking => "analytical_thinking"
  | abstractReasoning => "abstract_reasoning"
  | empathy => "empathy"
  | humor => "humor"
  | formality => "formality"
  | verbosity => "verbosity"
  | decisiveness => "decisiveness"
  | riskTolerance => "risk_tolerance"
  | confidenceThreshold => "confidence_threshold"
  | intuition => "intuition"
  | thoroughness => "thoroughness"
  | efficiency => "efficiency"
  | persistence => "persistence"
  | organization => "organization"
  | adaptability => "adaptability"
  | learningRate => "learning_rate"
  | openness => "openness"
  | reflection => "reflection"
  | selfAwareness => "self_awareness"
  | transparency => "transparency"
  | consistency => "consistency"
  | humility => "humility"

def ofName? (s : String) : Option Trait := all.find? (·.name == s)

def category : Trait → Category
  | curiosity | creativity | analyticalThinking | abstractReasoning => .cognitive
  | empathy | humor | formality | verbosity => .social
  | decisiveness | riskTolerance | confidenceThreshold | intuition => .decision
  | thoroughness | efficiency | persistence | organization => .workStyle
  | adaptability | learningRate | openness | reflection => .learning
  | selfAwareness | transparency | consistency | humility => .reflective

theorem mem_all (t : Trait) : t ∈ all := by cases t <;> decide

@[simp] theorem ofIndex?_index (t : Trait) : ofIndex? t.index = some t := by cases t <;> rfl

theorem index_of_ofIndex? {i : Nat} {t : Trait} (h : ofIndex? i = some t) : t.index = i := by
  obtain ⟨hi, rfl⟩ := List.getElem?_eq_some_iff.mp h
  have : ∀ j : Fin 24, (all[j]).index = j := by decide
  exact congrArg Fin.val (this ⟨i, hi⟩)

theorem index_injective {s t : Trait} (h : s.index = t.index) : s = t := by
  have hs := ofIndex?_index s
  rw [h, ofIndex?_index] at hs
  exact (Option.some.inj hs).symm

@[simp] theorem ofName?_name (t : Trait) : ofName? t.name = some t := by cases t <;> decide

end Trait

/-- How strongly a trait shows. -/
inductive Level where
  | high | moderate | low
deriving DecidableEq

namespace Level

/-- Above 0.8 is high, above 0.6 moderate. -/
def of (value : Float) : Level :=
  if 0.8 < value then high else if 0.6 < value then moderate else low

def name : Level → String
  | high => "high"
  | moderate => "moderate"
  | low => "low"

end Level

end Persona
