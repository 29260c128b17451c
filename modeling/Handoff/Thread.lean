/-! What the orders of threads come to. -/
namespace Handoff.Thread

variable {α : Type}

inductive ProducerResult where
  | accepted
  | full
  | filled (count : Nat)
  | length (n : Nat)
  deriving DecidableEq

inductive ConsumerResult (α : Type) where
  | element (v : Option α)
  | drained (count : Nat)
  | length (n : Nat)

end Handoff.Thread
