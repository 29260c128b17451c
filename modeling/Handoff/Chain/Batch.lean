import Handoff.Chain.Basic
import Handoff.Loop

/-! Calls on a chain that run callbacks. A callback sees the chain as the call
has left it at that moment, in the midst of a claim, and may use it; the call
goes on with the chain as the callback leaves it. -/
namespace Handoff.Chain

variable {α E : Type}

/-- How many elements `fillAll` and `fillWith` claim at a time. -/
def batch : Nat := 4096

/-- Stores `count` supplied elements from a claimed index on. The chunk is that
of the claim, also after a callback has linked others. -/
def writeRun (supply : Act (World (Chain α) E) α) (cursor : Cursor) :
    Nat → Nat → Act (World (Chain α) E) Unit
  | _, 0 => return ()
  | index, count + 1 => do
    let v ← supply
    Act.onQueue (put cursor index v)
    writeRun supply cursor (index + 2) count

/-- Claims up to `wanted` indices at once and supplies their elements in order.
Answers how many were supplied. -/
def fill (supply : Act (World (Chain α) E) α) (wanted : Nat) : Act (World (Chain α) E) Nat := do
  match ← Act.onQueue (claim wanted) with
  | .full => return 0
  | .run site count =>
    writeRun supply site.cursor site.index count
    return count
  | .link site =>
    let v ← supply
    Act.onQueue (extend site v)
    return 1

/-- Fills by batches until the chain is full. If callbacks drain it meanwhile,
stops once more than its capacity was supplied. -/
def fillAll (supply : Act (World (Chain α) E) α) : Act (World (Chain α) E) Nat := do
  let capacity ← Act.onQueue (Act.view capacity)
  Loop.fillRounds (fill supply batch) capacity (capacity + 1) 0

/-- Supplies elements by batches while `keepRunning` says so, and waits while the
chain is full. At most `polls` exit polls are made. -/
def fillWith (supply : Act (World (Chain α) E) α)
    (wait : UInt64 → Act (World (Chain α) E) UInt64) (keepRunning : Act (World (Chain α) E) Bool)
    (polls : Nat) : Act (World (Chain α) E) Unit :=
  Loop.fillPhases (fill supply batch) wait keepRunning polls .opening

def drain (consume : α → Act (World (Chain α) E) Unit) (limit : Nat) :
    Act (World (Chain α) E) Nat :=
  Loop.drainFrom (Act.onQueue relaxedPoll) consume 0 limit

def drainAll (consume : α → Act (World (Chain α) E) Unit) : Act (World (Chain α) E) Nat := do
  drain consume (← Act.onQueue (Act.view capacity))

def drainWith (consume : α → Act (World (Chain α) E) Unit)
    (wait : UInt64 → Act (World (Chain α) E) UInt64) (keepRunning : Act (World (Chain α) E) Bool)
    (polls : Nat) : Act (World (Chain α) E) Unit :=
  Loop.drainLoop (Act.onQueue relaxedPoll) consume wait keepRunning polls 0

end Handoff.Chain
