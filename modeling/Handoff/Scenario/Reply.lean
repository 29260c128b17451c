import Handoff.Scenario.Step

/-! What the steps of a scenario answer. -/
namespace Handoff.Scenario

/-- Values in order, in full or as their number with the first and the last. -/
inductive Digest (α : Type) where
  | all (values : List α)
  | ends (count : Nat) (first last : Option α)

namespace Digest

variable {α : Type}

def of (brief : Bool) (values : List α) : Digest α :=
  if brief then .ends values.length values.head? values.getLast? else .all values

end Digest

/-- The answer of a step without callbacks. A handle is `gone` if it was never
made or has been dropped, `busy` if an enclosing step holds it, and `unfit` if
its channel has no such call. -/
inductive Reply (α : Type) where
  | accepted
  | refused (full : Full α)
  | offered (accepted : Nat) (refused : Option α)
  | element (v : Option α)
  | elements (values : Digest α)
  | info (indicators : Indicators) (side : Side)
  | number (n : Nat)
  | dropped
  | started
  | gone
  | busy
  | unfit

inductive ThreadReply (α : Type) where
  | element (v : Option α)
  | accepted
  | refused (full : Full α)
  | count (n : Nat)

/-- The channel after a step, as a handle that is free sees it, with the reports
and the dropped values since the step before. -/
structure After (α : Type) where
  indicators : Option Indicators
  events : List Event
  discarded : List α

/-- What a batch step did: how it ended, with the number it answered if it
answers one; the values that went through its callbacks; and, for a streaming
call, each wait with its answer and the number of exit polls. -/
structure Summary (α : Type) where
  ending : Ending (Option Nat)
  values : Digest α
  waits : List (UInt64 × UInt64)
  exits : Option Nat

/-- The answer of a step. A step that starts a thread says nothing about the
channel, on which the thread may be at work. Answers of steps in callbacks come
with the callback and the number of its call. `joined` holds the answers of the threads that a
batch step has waited for. -/
inductive StepReply (α : Type) where
  | call (reply : Reply α) (after : After α)
  | batch (summary : Summary α) (hooks : List (Moment × Nat × StepReply α))
      (joined : List (List (ThreadReply α))) (after : After α)
  | rounds (replies : List (List (StepReply α))) (after : After α)
  | thread (reply : Reply α)

end Handoff.Scenario
