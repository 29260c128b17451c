import Handoff.Ring.Basic

/-! Calls on a ring that run callbacks. Each element is published before the
next one is supplied, and each slot released before its element is consumed, so
a callback sees the ring as if the elements so far had been handled one by one. -/
namespace Handoff.Ring

variable {α E : Type}

def supplyAt (supply : Act (World (Ring α) E) α) (index : Nat) : Act (World (Ring α) E) Unit := do
  let v ← supply
  Act.onQueue (publish index v)

/-- Supplies up to `left` more elements from `index` on; `done` counts those
before. The next `free` slots are known to be empty and are written without a
look; after them one probe ahead allows `lookAhead` more. -/
def fillFrom (supply : Act (World (Ring α) E) α) :
    Nat → Nat → Nat → Nat → Act (World (Ring α) E) Nat
  | _, _, done, 0 => return done
  | index, free + 1, done, left + 1 => do
    supplyAt supply index
    fillFrom supply (index + 1) free (done + 1) left
  | index, 0, done, left + 1 => do
    if ← Act.onQueue (Act.view (·.vacantAhead index)) then
      let lookAhead ← Act.onQueue (Act.view lookAhead)
      supplyAt supply index
      fillFrom supply (index + 1) (lookAhead - 1) (done + 1) left
    else if ← Act.onQueue (Act.view (·.vacantAt index)) then
      supplyAt supply index
      fillFrom supply (index + 1) 0 (done + 1) left
    else
      return done

/-- Supplies up to `limit` elements, fewer only if the ring fills up. Answers
how many were supplied. -/
def fill (supply : Act (World (Ring α) E) α) (limit : Nat) : Act (World (Ring α) E) Nat := do
  fillFrom supply (← Act.onQueue (Act.view producerIndex)) 0 0 limit

def fillAll (supply : Act (World (Ring α) E) α) : Act (World (Ring α) E) Nat := do
  fill supply (← Act.onQueue (Act.view capacity))

def supplyRun (supply : Act (World (Ring α) E) α) : Nat → Nat → Act (World (Ring α) E) Unit
  | _, 0 => return ()
  | index, count + 1 => do
    supplyAt supply index
    supplyRun supply (index + 1) count

/-- The loop of `fillWith`, with the next index and the counter for the next
wait. -/
def fillLoop (supply : Act (World (Ring α) E) α)
    (wait : UInt64 → Act (World (Ring α) E) UInt64) (keepRunning : Act (World (Ring α) E) Bool) :
    Nat → Nat → UInt64 → Act (World (Ring α) E) Unit
  | 0, _, _ => throw .unfinished
  | polls + 1, index, counter => do
    if ← keepRunning then
      if ← Act.onQueue (Act.view (·.vacantAhead index)) then
        let lookAhead ← Act.onQueue (Act.view lookAhead)
        supplyRun supply index lookAhead
        fillLoop supply wait keepRunning polls (index + lookAhead) 0
      else if ← Act.onQueue (Act.view (·.vacantAt index)) then
        supplyAt supply index
        fillLoop supply wait keepRunning polls (index + 1) 0
      else
        let counter ← wait counter
        fillLoop supply wait keepRunning polls index counter
    else
      return ()

/-- Supplies elements while `keepRunning` says so, and waits while the ring is
full. One exit poll allows one element or as many as one probe ahead does. At
most `polls` exit polls are made. -/
def fillWith (supply : Act (World (Ring α) E) α)
    (wait : UInt64 → Act (World (Ring α) E) UInt64) (keepRunning : Act (World (Ring α) E) Bool)
    (polls : Nat) : Act (World (Ring α) E) Unit := do
  fillLoop supply wait keepRunning polls (← Act.onQueue (Act.view producerIndex)) 0

/-- Consumes up to `left` more elements from `index` on; `done` counts those
before. -/
def drainFrom (consume : α → Act (World (Ring α) E) Unit) :
    Nat → Nat → Nat → Act (World (Ring α) E) Nat
  | _, done, 0 => return done
  | index, done, left + 1 => do
    match ← Act.onQueue (pollAt index) with
    | none => return done
    | some v =>
      consume v
      drainFrom consume (index + 1) (done + 1) left

def drain (consume : α → Act (World (Ring α) E) Unit) (limit : Nat) :
    Act (World (Ring α) E) Nat := do
  drainFrom consume (← Act.onQueue (Act.view consumerIndex)) 0 limit

def drainAll (consume : α → Act (World (Ring α) E) Unit) : Act (World (Ring α) E) Nat := do
  drain consume (← Act.onQueue (Act.view capacity))

/-- The loop of `drainWith`, with the next index and the counter for the next
wait. -/
def drainLoop (consume : α → Act (World (Ring α) E) Unit)
    (wait : UInt64 → Act (World (Ring α) E) UInt64) (keepRunning : Act (World (Ring α) E) Bool) :
    Nat → Nat → UInt64 → Act (World (Ring α) E) Unit
  | 0, _, _ => throw .unfinished
  | polls + 1, index, counter => do
    if ← keepRunning then
      match ← Act.onQueue (pollAt index) with
      | some v =>
        consume v
        drainLoop consume wait keepRunning polls (index + 1) 0
      | none =>
        let counter ← wait counter
        drainLoop consume wait keepRunning polls index counter
    else
      return ()

/-- Consumes elements while `keepRunning` says so, and waits while there is
none. At most `polls` exit polls are made. -/
def drainWith (consume : α → Act (World (Ring α) E) Unit)
    (wait : UInt64 → Act (World (Ring α) E) UInt64) (keepRunning : Act (World (Ring α) E) Bool)
    (polls : Nat) : Act (World (Ring α) E) Unit := do
  drainLoop consume wait keepRunning polls (← Act.onQueue (Act.view consumerIndex)) 0

end Handoff.Ring
