import Handoff.Channel
import Handoff.Wait

/-! Scenarios: lists of steps on the handles of one channel. A batch step runs
callbacks, and a callback can hold hooks: further steps on the same channel, to
any depth, after which it may panic. -/
namespace Handoff.Scenario

/-- A handle by name. Producer handles are numbered as they are made. -/
inductive Handle where
  | producer (number : Nat)
  | consumer
  deriving DecidableEq

namespace Handle

def side : Handle → Side
  | producer _ => .producer
  | consumer => .consumer

end Handle

/-- A step that runs no callback. The many-fold offer takes fresh values until
one comes back. -/
inductive Call (α : Type) where
  | offer (producer : Nat) (v : α)
  | relaxedOffer (producer : Nat) (v : α)
  | offerMany (producer count : Nat)
  | poll
  | relaxedPoll
  | peek
  | relaxedPeek
  | pollMany (count : Nat) (brief : Bool)
  | info (handle : Handle)
  | lookAhead (producer : Nat)
  | clone (producer : Nat)
  | drop (handle : Handle)

namespace Call

variable {α : Type}

/-- The handle that the step is called on. -/
def handle : Call α → Handle
  | offer p _ | relaxedOffer p _ | offerMany p _ | lookAhead p | clone p => .producer p
  | poll | relaxedPoll | peek | relaxedPeek | pollMany _ _ => .consumer
  | info h | drop h => h

end Call

/-- An exit condition by numbers: it says to go on for `polls` polls, fewer than
`idles` wait calls and fewer than `items` supplied or consumed elements. -/
structure ExitRule where
  polls : Nat
  idles : Option Nat
  items : Option Nat

namespace ExitRule

def goesOn (rule : ExitRule) (poll idles items : Nat) : Bool :=
  poll < rule.polls && rule.idles.all (idles < ·) && rule.items.all (items < ·)

/-- Enough polls for any streaming call: after `polls` of them every answer is
no, and the third no in a row ends every loop. -/
def allowance (rule : ExitRule) : Nat := rule.polls + 3

end ExitRule

/-- A step that runs callbacks. -/
inductive Batch where
  | fill (producer limit : Nat)
  | fillAll (producer : Nat)
  | fillWith (producer : Nat) (wait : WaitStrategy) (exit : ExitRule)
  | drain (limit : Nat)
  | drainAll
  | drainWith (wait : WaitStrategy) (exit : ExitRule)

namespace Batch

/-- The handle that the step is called on, and that it keeps in use. -/
def handle : Batch → Handle
  | fill p _ | fillAll p | fillWith p _ _ => .producer p
  | drain _ | drainAll | drainWith _ _ => .consumer

def strategy : Batch → WaitStrategy
  | fillWith _ wait _ | drainWith wait _ => wait
  | _ => .busySpin

def exit? : Batch → Option ExitRule
  | fillWith _ _ exit | drainWith _ exit => some exit
  | _ => none

end Batch

inductive Moment where
  | supply
  | consume
  | wait
  | exit
  deriving DecidableEq

/-- On which calls of its callback a hook runs. Calls count from zero. -/
inductive Trigger where
  | at (call : Nat)
  | every (period : Nat)

namespace Trigger

def fires : Trigger → Nat → Bool
  | .at n, call => call == n
  | .every period, call => (call + 1) % period == 0

end Trigger

/-- A call made by another thread on its own producer handle or on the consumer. -/
inductive ThreadCall (α : Type) where
  | poll
  | peek
  | offer (v : α)
  | fill (limit : Nat) (v : α)

mutual

/-- A step. With `join` a batch step waits at its end for the threads started
during it. `stop` ends the whole scenario at once, also from inside a callback,
and so leaves the channel as it is seen at that moment. -/
inductive Step (α : Type) where
  | call (call : Call α)
  | batch (batch : Batch) (brief join : Bool) (hooks : List (Hook α))
  | repeated (times : Nat) (steps : List (Step α))
  | spawn (calls : List (ThreadCall α))
  | stop

/-- Steps that a callback runs, and whether it panics after them. -/
inductive Hook (α : Type) where
  | mk (moment : Moment) (trigger : Trigger) (steps : List (Step α)) (panics : Bool)

end

end Handoff.Scenario
