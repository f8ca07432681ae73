import Persona.Decimal.Text
import Persona.Trait

/-! Personality profiles: a value in `[0, 1]` for every trait.

Every operation returns a new profile or the cause of its refusal; a refused
operation leaves no trace. -/
namespace Persona

structure Profile where
  values : Vector Float 24

/-- Why an operation on profiles is refused. -/
inductive ProfileError where
  | unknownTrait (name : String)
  | outOfRange (t : Trait) (value : Float)
  | unknownTemplate (name : String)
  | invalidWeights (own other : Float)
  | invalidRate (rate : Float)
  | duplicateTrait (t : Trait)
deriving DecidableEq

def ProfileError.message : ProfileError → String
  | unknownTrait name => s!"invalid trait '{name}': unknown trait"
  | outOfRange t value =>
    s!"invalid trait '{t.name}': value {Decimal.positional value} is outside [0.0, 1.0]"
  | unknownTemplate name => s!"unknown personality template '{name}'"
  | invalidWeights own other =>
    s!"invalid weights ({Decimal.positional own}, {Decimal.positional other}): " ++
      "each weight must lie in [0, 1] and they must sum to 1"
  | invalidRate rate =>
    s!"invalid evolution rate {Decimal.positional rate}: rate must lie in (0, 1]"
  | duplicateTrait t => s!"duplicate trait '{t.name}' in personality block"

/-- Which way a trait evolves. -/
inductive Direction where
  | increase | decrease
deriving DecidableEq

/-- No direction but one step up or down. -/
def Direction.ofSign? (sign : Int) : Option Direction :=
  if sign = 1 then some increase else if sign = -1 then some decrease else none

def Direction.sign : Direction → Float
  | increase => 1.0
  | decrease => -1.0

namespace Profile

/-- The value of a trait that nothing sets. -/
def neutral : Float := 0.7

def default : Profile := ⟨Vector.replicate 24 neutral⟩

instance : Inhabited Profile := ⟨default⟩

def get (p : Profile) (t : Trait) : Float := p.values[t.index]

/-- A value that a trait or a weight may have; NaN is none. -/
def inUnit (value : Float) : Bool := 0.0 ≤ value && value ≤ 1.0

def put (p : Profile) (t : Trait) (value : Float) : Profile := ⟨p.values.set t.index value⟩

@[simp] theorem get_put_self (p : Profile) (t : Trait) (value : Float) : (p.put t value).get t = value := by
  simp [get, put]

theorem get_put_of_ne (p : Profile) {s t : Trait} (value : Float) (h : s ≠ t) :
    (p.put t value).get s = p.get s := by
  have : (t.index : Nat) ≠ s.index := fun e => h (Trait.index_injective (Fin.ext e)).symm
  simp [get, put, this]

@[simp] theorem get_default (t : Trait) : default.get t = neutral := by
  simp [get, default]

def set (p : Profile) (t : Trait) (value : Float) : Except ProfileError Profile :=
  if inUnit value then .ok (p.put t value) else .error (.outOfRange t value)

def setNamed (p : Profile) (name : String) (value : Float) : Except ProfileError Profile :=
  match Trait.ofName? name with
  | some t => p.set t value
  | none => .error (.unknownTrait name)

/-- Moves a trait by a rate and stops at the ends of the unit interval. -/
def evolve (p : Profile) (t : Trait) (d : Direction) (rate : Float) : Except ProfileError Profile :=
  if 0.0 < rate && rate ≤ 1.0 then
    .ok (p.put t (Decimal.clamp 0.0 1.0 (p.get t + d.sign * rate)))
  else .error (.invalidRate rate)

/-- How far the sum of two weights may be from one. -/
def weightTolerance : Float := 1e-9

/-- The weighted mean of two profiles. -/
def mix (p q : Profile) (own other : Float) : Except ProfileError Profile :=
  if inUnit own && inUnit other && (own + other - 1.0).abs ≤ weightTolerance then
    .ok ⟨Vector.zipWith (fun a b => Decimal.clamp 0.0 1.0 (own * a + other * b)) p.values q.values⟩
  else .error (.invalidWeights own other)

/-- Sets the traits of a block in order; a block names no trait twice. -/
def applyBlock (p : Profile) (entries : List (Trait × Float)) : Except ProfileError Profile :=
  go p [] entries
where
  go (p : Profile) (seen : List Trait) : List (Trait × Float) → Except ProfileError Profile
    | [] => .ok p
    | (t, value) :: rest =>
      if t ∈ seen then .error (.duplicateTrait t)
      else match p.set t value with
        | .ok p => go p (t :: seen) rest
        | .error e => .error e

/-- Sets named traits in order on a profile. -/
def setAll (p : Profile) (entries : List (String × Float)) : Except ProfileError Profile :=
  entries.foldlM (fun p (name, value) => p.setNamed name value) p

def level (p : Profile) (t : Trait) : Level := .of (p.get t)

def toList (p : Profile) : List (Trait × Float) := Trait.all.map fun t => (t, p.get t)

/-- Equal in every trait, as numbers. -/
def beq (p q : Profile) : Bool := Trait.all.all fun t => p.get t == q.get t

instance : BEq Profile := ⟨beq⟩

end Profile

end Persona
