import Handoff.Capacity
import Handoff.Chunk.Basic
import Handoff.Event
import Handoff.Full
import Handoff.Index

/-! The ring: the queue of one producer and one consumer, in a single chunk that
is used round and round. Whether there is room, and whether there is an element,
is read off the slots; each side stores only its own index.

The producer probes the slot `lookAhead` indices ahead. The consumer empties
slots in order, so if that slot is empty, all slots before it are. -/
namespace Handoff

variable {α β : Type}

/-- Slots below `producerLimit` are known to be empty, which only `offer` makes
use of. `discarded` holds the values that the ring itself dropped, `journal` its
reports, both in order. -/
structure Ring (α : Type) where
  chunk : Chunk α
  producerIndex : Nat
  consumerIndex : Nat
  producerLimit : Nat
  lookAhead : Nat
  discarded : Array α
  journal : Array Event

namespace Ring

def ofSize (size : RingSize) : Ring α :=
  { chunk := .ofSize size.capacity
    producerIndex := 0
    consumerIndex := 0
    producerLimit := 0
    lookAhead := size.lookAhead
    discarded := #[]
    journal := #[.ringCreated size.capacity size.lookAhead] }

/-- A ring of about `capacity` slots that probes at most `maxStep` slots ahead. -/
def withSettings (capacity maxStep : Nat) : Except CapacityError (Ring α) :=
  ofSize <$> RingSize.plan capacity maxStep

def ofCapacity (capacity : Nat) : Except CapacityError (Ring α) :=
  withSettings capacity RingSize.defaultMaxStep

def capacity (q : Ring α) : Nat := q.chunk.size

def length (q : Ring α) : Nat := Index.distance q.producerIndex q.consumerIndex

def isEmpty (q : Ring α) : Bool := q.consumerIndex == q.producerIndex

def vacantAt (q : Ring α) (index : Nat) : Bool :=
  q.chunk.vacant (Index.slotOf index q.chunk.size)

def vacantAhead (q : Ring α) (index : Nat) : Bool := q.vacantAt (index + q.lookAhead)

def onChunk (act : Act (Chunk α) β) : Act (Ring α) β :=
  fun ⟨chunk, producer, consumer, limit, lookAhead, discarded, journal⟩ =>
    match act chunk with
    | .ok b chunk => .ok b ⟨chunk, producer, consumer, limit, lookAhead, discarded, journal⟩
    | .error h chunk => .error h ⟨chunk, producer, consumer, limit, lookAhead, discarded, journal⟩

/-- Stores an element and then makes its index visible. -/
def publish (index : Nat) (v : α) : Act (Ring α) Unit := do
  onChunk (Chunk.write (Index.slotOf index (← Act.view capacity)) v)
  modify ({ · with producerIndex := index + 1 })

/-- Whether the slot of `index` is free. A successful probe ahead raises the
limit, so that the next calls need no probe. -/
def hasRoom (index : Nat) : Act (Ring α) Bool := do
  if index < (← Act.view producerLimit) then return true
  if ← Act.view (·.vacantAhead index) then
    modify fun q => { q with producerLimit := index + q.lookAhead }
    return true
  Act.view (·.vacantAt index)

/-- Accepts a value, or gives it back because there is no room. -/
def offer (v : α) : Act (Ring α) (Except (Full α) Unit) := do
  let index ← Act.view producerIndex
  if ← hasRoom index then
    publish index v
    return .ok ()
  else
    return .error ⟨v⟩

def relaxedOffer (v : α) : Act (Ring α) (Except (Full α) Unit) := offer v

/-- Takes the element of `index` and then makes its slot's release visible. -/
def release (index : Nat) : Act (Ring α) α := do
  let v ← onChunk (Chunk.take (Index.slotOf index (← Act.view capacity)))
  modify ({ · with consumerIndex := index + 1 })
  return v

def pollAt (index : Nat) : Act (Ring α) (Option α) := do
  if ← Act.view (·.vacantAt index) then return none else return some (← release index)

def poll : Act (Ring α) (Option α) := do
  pollAt (← Act.view consumerIndex)

def peek : Act (Ring α) (Option α) := do
  let index ← Act.view consumerIndex
  if ← Act.view (·.vacantAt index) then return none
  return some (← onChunk (Chunk.get (Index.slotOf index (← Act.view capacity))))

/-- The same as `poll`: a ring never waits for an element. -/
def relaxedPoll : Act (Ring α) (Option α) := poll

def relaxedPeek : Act (Ring α) (Option α) := peek

/-- Drops what is still stored, in slot order, and leaves no slot behind. -/
def close : Act (Ring α) Unit := do
  let left ← Act.view (·.chunk.values)
  modify fun q => { q with
    chunk := { q.chunk with slots := #[] }
    discarded := q.discarded ++ left }

end Ring
end Handoff
