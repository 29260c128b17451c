/-! Waiting. A streaming call that makes no progress asks a wait strategy what
to do; the strategy answers with the counter that its next call receives. -/
namespace Handoff

inductive Pause where
  | spin
  | yield
  | park
  deriving DecidableEq

/-- Spins while the counter is below `spinLimit`, then yields while it is below
`yieldLimit`, then parks for `park` microseconds at a time. -/
structure Backoff where
  spinLimit : UInt64
  yieldLimit : UInt64
  park : UInt64
  deriving DecidableEq

namespace Backoff

def standard : Backoff := ⟨64, 128, 50⟩

def pause (b : Backoff) (counter : UInt64) : Pause :=
  if counter < b.spinLimit then .spin
  else if counter < b.yieldLimit then .yield
  else .park

/-- Once a call parks, the counter stands still. -/
def idle (b : Backoff) (counter : UInt64) : UInt64 :=
  match b.pause counter with
  | .spin | .yield => counter + 1
  | .park => counter

def describe (b : Backoff) : String :=
  s!"Backoff \x7b spin_limit: {b.spinLimit}, yield_limit: {b.yieldLimit}, " ++
    s!"park_duration: {b.park}µs \x7d"

end Backoff

/-- A wait strategy. `busySpin`, `yield` and `relax` pause in their own way and
count their calls; `advance` moves the counter by a fixed step; both go round
the word. `listed` answers from a list and with zero after it. -/
inductive WaitStrategy where
  | busySpin
  | yield
  | relax
  | backoff (limits : Backoff)
  | advance (step : UInt64)
  | listed (answers : List UInt64)
  deriving DecidableEq

namespace WaitStrategy

/-- One idle call: the counter for the next call, and the strategy as that call
will find it. -/
def idle : WaitStrategy → UInt64 → UInt64 × WaitStrategy
  | busySpin, counter => (counter + 1, busySpin)
  | yield, counter => (counter + 1, yield)
  | relax, counter => (counter + 1, relax)
  | backoff limits, counter => (limits.idle counter, backoff limits)
  | advance step, counter => (counter + step, advance step)
  | listed [], _ => (0, listed [])
  | listed (answer :: rest), _ => (answer, listed rest)

def describe? : WaitStrategy → Option String
  | busySpin => some "BusySpin"
  | yield => some "Yield"
  | backoff limits => some limits.describe
  | relax | advance _ | listed _ => none

def idleEach : WaitStrategy → List UInt64 → List UInt64 × WaitStrategy
  | w, [] => ([], w)
  | w, counter :: rest =>
    let (answer, w) := w.idle counter
    let (answers, w) := w.idleEach rest
    (answer :: answers, w)

/-- `n` idle calls, each given the answer of the one before. -/
def idleChain : WaitStrategy → UInt64 → Nat → List UInt64
  | _, _, 0 => []
  | w, counter, n + 1 =>
    let (answer, w) := w.idle counter
    answer :: w.idleChain answer n

end WaitStrategy

/-- An exit condition that lets a loop run a number of times. -/
structure Countdown where
  left : Nat

namespace Countdown

/-- One poll: whether to go on, and the condition as the next poll finds it. -/
def keepRunning (c : Countdown) : Bool × Countdown :=
  match c.left with
  | 0 => (false, c)
  | n + 1 => (true, ⟨n⟩)

/-- How many polls in a row say to go on, of at most `polls`. -/
def leading : Countdown → Nat → Nat
  | _, 0 => 0
  | c, polls + 1 =>
    match c.keepRunning with
    | (true, c) => c.leading polls + 1
    | (false, _) => 0

end Countdown
end Handoff
