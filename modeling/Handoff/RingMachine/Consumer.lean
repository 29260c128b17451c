import Handoff.Ring.Basic
import Handoff.Thread

/-! The consumer of a ring, one atomic step at a time. -/
namespace Handoff.RingMachine

open Thread

variable {α : Type}

/-- What the consumer has been told to do. A drain stops at the first empty
slot; a stream makes `rounds` attempts. -/
inductive Task where
  | poll
  | peek
  | drain (limit : Nat)
  | stream (rounds : Nat)

/-- Where the consumer is: what its next step does, with the index it is at, the
elements `done`, and what is `left` after the present attempt. -/
inductive ConsumerPc (α : Type) where
  | idle (last : Option (ConsumerResult α))
  | loadIndex (t : Task)
  | probe (t : Task) (index done left : Nat)
  | take (t : Task) (index done left : Nat)
  | showHead (t : Task) (index : Nat)
  | storeIndex (t : Task) (index done left : Nat) (v : α)
  | lengthFirst
  | lengthProducer (before : Nat)
  | lengthAgain (before producer : Nat)
  | fault

namespace ConsumerPc

/-- The next attempt of a drain or a stream, or its end. -/
def attempt (t : Task) (index done : Nat) : Nat → ConsumerPc α
  | 0 => idle (some (.drained done))
  | left + 1 => probe t index done left

def begin (t : Task) (index : Nat) : ConsumerPc α :=
  match t with
  | .poll | .peek => probe t index 0 0
  | .drain left | .stream left => attempt t index 0 left

def nothing (t : Task) (index done left : Nat) : ConsumerPc α :=
  match t with
  | .poll | .peek => idle (some (.element none))
  | .drain _ => idle (some (.drained done))
  | .stream _ => attempt t index done left

def found (t : Task) (index done left : Nat) : ConsumerPc α :=
  match t with
  | .peek => showHead t index
  | _ => take t index done left

def released (t : Task) (index done left : Nat) (v : α) : ConsumerPc α :=
  match t with
  | .poll | .peek => idle (some (.element (some v)))
  | .drain _ | .stream _ => attempt t (index + 1) (done + 1) left

end ConsumerPc

open ConsumerPc in
/-- One step of the consumer, with the element it took out of its slot. -/
def stepConsumer : ConsumerPc α → Act (Ring α) (ConsumerPc α × Option α)
  | idle last => return (idle last, none)
  | loadIndex t => return (begin t (← Act.view Ring.consumerIndex), none)
  | probe t index done left => do
    if ← Act.view (·.vacantAt index) then
      return (nothing t index done left, none)
    else
      return (found t index done left, none)
  | take t index done left => do
    let v ← Ring.onChunk (Chunk.take (Index.slotOf index (← Act.view Ring.capacity)))
    return (storeIndex t index done left v, some v)
  | showHead _ index => do
    let v ← Ring.onChunk (Chunk.get (Index.slotOf index (← Act.view Ring.capacity)))
    return (idle (some (.element (some v))), none)
  | storeIndex t index done left v => do
    modify ({ · with consumerIndex := index + 1 })
    return (released t index done left v, none)
  | lengthFirst => return (lengthProducer (← Act.view Ring.consumerIndex), none)
  | lengthProducer before => return (lengthAgain before (← Act.view Ring.producerIndex), none)
  | lengthAgain before producer => do
    let after ← Act.view Ring.consumerIndex
    if before = after then
      return (idle (some (.length (Index.distance producer after))), none)
    else
      return (lengthProducer after, none)
  | fault => return (fault, none)

end Handoff.RingMachine
