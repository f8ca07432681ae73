/-! Blank characters: the Unicode property White_Space, which is 25 characters. -/
namespace Persona.Text

/-- Inclusive ranges of code points. -/
def blankRanges : List (Nat × Nat) :=
  [(0x09, 0x0D), (0x20, 0x20), (0x85, 0x85), (0xA0, 0xA0), (0x1680, 0x1680), (0x2000, 0x200A),
   (0x2028, 0x2029), (0x202F, 0x202F), (0x205F, 0x205F), (0x3000, 0x3000)]

def isBlank (c : Char) : Bool :=
  blankRanges.any fun (lo, hi) => lo ≤ c.toNat && c.toNat ≤ hi

/-- The ranges hold the property's 25 characters. -/
theorem blankRanges_count : blankRanges.foldl (fun n (lo, hi) => n + (hi - lo + 1)) 0 = 25 := by decide

end Persona.Text
