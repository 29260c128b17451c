/-! Capacities. A queue is asked for by numbers of elements that a caller picks
freely; the sizes that are built are powers of two within a fixed limit. -/
namespace Handoff

/-- Why the numbers asked for cannot be built. The two sizes of
`initialNotBelowMax` are those asked for; they are compared after rounding. -/
inductive CapacityError where
  | initialTooSmall (given : Nat)
  | maxTooSmall (given : Nat)
  | initialNotBelowMax (initial max : Nat)
  | tooLarge (requested limit : Nat)
  deriving DecidableEq

namespace CapacityError

def label : CapacityError → String
  | initialTooSmall _ => "InitialCapacityTooSmall"
  | maxTooSmall _ => "MaxCapacityTooSmall"
  | initialNotBelowMax _ _ => "InitialNotBelowMax"
  | tooLarge _ _ => "TooLarge"

def fields : CapacityError → List Nat
  | initialTooSmall given => [given]
  | maxTooSmall given => [given]
  | initialNotBelowMax initial max => [initial, max]
  | tooLarge requested limit => [requested, limit]

def message : CapacityError → String
  | initialTooSmall given => s!"initial capacity must be 2 or more, got {given}"
  | maxTooSmall given => s!"max capacity must be 4 or more, got {given}"
  | initialNotBelowMax initial max =>
    s!"initial capacity {initial} must round to a smaller power of 2 than max capacity {max}"
  | tooLarge requested limit =>
    s!"capacity {requested} exceeds the largest supported capacity {limit}"

def describe : CapacityError → String
  | initialTooSmall given => s!"InitialCapacityTooSmall({given})"
  | maxTooSmall given => s!"MaxCapacityTooSmall({given})"
  | initialNotBelowMax initial max =>
    s!"InitialNotBelowMax \x7b initial: {initial}, max: {max} \x7d"
  | tooLarge requested limit =>
    s!"TooLarge \x7b requested: {requested}, limit: {limit} \x7d"

end CapacityError

namespace Capacity

/-- The largest size that is ever built, the thirtieth power of two. -/
def largest : Nat := 1073741824

/-- The least power of two that is not below `n`. -/
def roundUp (n : Nat) : Nat := if n ≤ 1 then 1 else 1 <<< ((n - 1).log2 + 1)

def round (n : Nat) : Except CapacityError Nat :=
  if largest < n then .error (.tooLarge n largest) else .ok (roundUp n)

end Capacity

/-- The sizes of a ring: its slots, and how far ahead its producer probes. -/
structure RingSize where
  capacity : Nat
  lookAhead : Nat
  deriving DecidableEq

namespace RingSize

def defaultMaxStep : Nat := 4096

/-- A ring has four slots or more. The probe reaches a quarter of it ahead, no
farther than `maxStep` and always at least one slot. -/
def plan (requested maxStep : Nat) : Except CapacityError RingSize := do
  let capacity := max (← Capacity.round requested) 4
  return ⟨capacity, max (min (capacity / 4) maxStep) 1⟩

end RingSize

/-- The sizes of a chain: the slots of each chunk, and the most elements that
all chunks together may hold. -/
structure ChainSize where
  chunkSize : Nat
  capacity : Nat
  deriving DecidableEq

namespace ChainSize

/-- The checks are made in this order, the last one on the rounded sizes. -/
def plan (initial max : Nat) : Except CapacityError ChainSize := do
  if initial < 2 then throw (.initialTooSmall initial)
  if max < 4 then throw (.maxTooSmall max)
  let chunkSize ← Capacity.round initial
  let capacity ← Capacity.round max
  if capacity ≤ chunkSize then throw (.initialNotBelowMax initial max)
  return ⟨chunkSize, capacity⟩

/-- Chunks of an eighth of the whole, kept within `2..=1024`. -/
def planForMax (max : Nat) : Except CapacityError ChainSize := do
  let eighth ← Capacity.round (min (max / 8) 1024)
  plan (Nat.max eighth 2) max

end ChainSize
end Handoff
