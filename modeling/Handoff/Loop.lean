import Handoff.Act

/-! Loops of batch and streaming calls. Each is written around one attempt, a
call that tells how many elements it added or which element it took, and knows
nothing else of the queue. -/
namespace Handoff.Loop

variable {σ α : Type}

/-- Repeats an attempt until it adds nothing or the total passes `capacity`. Each
round adds at least one element, so `capacity + 1` rounds are enough. -/
def fillRounds (attempt : Act σ Nat) (capacity : Nat) : Nat → Nat → Act σ Nat
  | 0, total => return total
  | rounds + 1, total => do
    let filled ← attempt
    if filled = 0 then return total
    if capacity < total + filled then return total + filled
    fillRounds attempt capacity rounds (total + filled)

/-- What the next exit poll of a filling loop decides. `opening` starts over or
ends the loop; `filling` and `idling` pick between two ways to go on, and only
`opening` ends it. -/
inductive Phase where
  | opening
  | filling
  | idling (counter : UInt64)

/-- Repeats an attempt while `keepRunning` says so, and waits while it adds
nothing. Each step of the recursion is one exit poll, of which `polls` are
allowed. -/
def fillPhases (attempt : Act σ Nat) (wait : UInt64 → Act σ UInt64) (keepRunning : Act σ Bool) :
    Nat → Phase → Act σ Unit
  | 0, _ => throw .unfinished
  | polls + 1, phase => do
    match phase, ← keepRunning with
    | .opening, false => return ()
    | .opening, true | .filling, true =>
      if (← attempt) = 0 then
        fillPhases attempt wait keepRunning polls (.idling 0)
      else
        fillPhases attempt wait keepRunning polls .filling
    | .filling, false => fillPhases attempt wait keepRunning polls (.idling 0)
    | .idling counter, true =>
      if (← attempt) = 0 then
        let counter ← wait counter
        fillPhases attempt wait keepRunning polls (.idling counter)
      else
        fillPhases attempt wait keepRunning polls .opening
    | .idling _, false => fillPhases attempt wait keepRunning polls .opening

/-- Consumes up to `left` more elements; `done` counts those before. -/
def drainFrom (attempt : Act σ (Option α)) (consume : α → Act σ Unit) : Nat → Nat → Act σ Nat
  | done, 0 => return done
  | done, left + 1 => do
    match ← attempt with
    | none => return done
    | some v =>
      consume v
      drainFrom attempt consume (done + 1) left

/-- Consumes elements while `keepRunning` says so, and waits while there is none.
`counter` is for the next wait, and `polls` exit polls are allowed. -/
def drainLoop (attempt : Act σ (Option α)) (consume : α → Act σ Unit)
    (wait : UInt64 → Act σ UInt64) (keepRunning : Act σ Bool) : Nat → UInt64 → Act σ Unit
  | 0, _ => throw .unfinished
  | polls + 1, counter => do
    if ← keepRunning then
      match ← attempt with
      | some v =>
        consume v
        drainLoop attempt consume wait keepRunning polls 0
      | none =>
        let counter ← wait counter
        drainLoop attempt consume wait keepRunning polls counter
    else
      return ()

end Handoff.Loop
