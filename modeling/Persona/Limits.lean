/-! What a run may use. -/
namespace Persona

structure Limits where
  maxCallDepth : Nat := 128
  maxStackSize : Nat := 1024
  executionTimeoutMs : Nat := 10000
  maxOutputBytes : Nat := 102400
  maxSourceBytes : Nat := 1048576
  maxStringBytes : Nat := 16777216
  maxArrayLength : Nat := 1048576
  maxNestingDepth : Nat := 128
deriving DecidableEq

end Persona
