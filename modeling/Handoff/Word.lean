/-! Sixty-four-bit words. Sizes and index steps are computed on words, so an
operation that would leave the range must be refused or clamped: nothing here
wraps silently. -/
namespace Handoff.Word

def largest : Nat := UInt64.size - 1

/-- Twice a number of elements, held at the largest word. -/
def double (n : Nat) : Nat := min (2 * n) largest

/-- The product of two words, if it is a word. -/
def mul? (a b : UInt64) : Option UInt64 :=
  if a.toNat * b.toNat ≤ largest then some (a * b) else none

/-- The sum of two words, if it is a word. -/
def add? (a b : UInt64) : Option UInt64 :=
  if a.toNat + b.toNat ≤ largest then some (a + b) else none

end Handoff.Word
