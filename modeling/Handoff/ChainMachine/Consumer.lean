import Handoff.Chain.Basic
import Handoff.Thread

/-! The consumer of a chain, one atomic step at a time. -/
namespace Handoff.ChainMachine

open Thread

variable {α : Type}

/-- What the consumer has been told to do. A drain has passed on `done`
elements and stops after `left` more. -/
inductive Task where
  | poll
  | relaxedPoll
  | peek
  | relaxedPeek
  | drain (done left : Nat)

namespace Task

def waits : Task → Bool
  | poll | peek => true
  | relaxedPoll | relaxedPeek | drain _ _ => false

def takes : Task → Bool
  | poll | relaxedPoll | drain _ _ => true
  | peek | relaxedPeek => false

end Task

/-- Where the consumer is: what its next step does, with what it has loaded so
far. -/
inductive ConsumerPc (α : Type) where
  | idle (last : Option (ConsumerResult α))
  | loadIndex (t : Task)
  | readSlot (t : Task) (index : Nat)
  | loadProducer (t : Task) (index : Nat)
  | spin (t : Task) (index : Nat)
  | loadNext (t : Task) (index : Nat)
  | leave (t : Task) (index next : Nat)
  | readFirst (t : Task) (index : Nat)
  | take (t : Task) (index : Nat)
  | showHead (t : Task) (index : Nat)
  | storeIndex (t : Task) (index : Nat) (v : α)
  | lengthFirst
  | lengthProducer (before : Nat)
  | lengthAgain (before producer : Nat)
  | fault

namespace ConsumerPc

def nothing : Task → ConsumerPc α
  | .drain done _ => idle (some (.drained done))
  | _ => idle (some (.element none))

def took (v : α) : Task → ConsumerPc α
  | .drain done 0 => idle (some (.drained done))
  | .drain done 1 => idle (some (.drained (done + 1)))
  | .drain done (left + 2) => loadIndex (.drain (done + 1) (left + 1))
  | _ => idle (some (.element (some v)))

def found (t : Task) (index : Nat) : ConsumerPc α :=
  if t.takes then take t index else showHead t index

/-- After the slot of the index was read; `empty` says what to do then. -/
def seen (t : Task) (index : Nat) (empty : ConsumerPc α) : Slot α → ConsumerPc α
  | .empty => empty
  | .value _ => found t index
  | .jump => loadNext t index

end ConsumerPc

def readHead (index : Nat) : Act (Chain α) (Slot α) := do
  let cursor ← Act.view Chain.head
  Chain.onStore (Arena.read cursor.chunk (Index.position index cursor.mask))

open ConsumerPc in
/-- One step of the consumer, with the element it took out of its slot. -/
def stepConsumer : ConsumerPc α → Act (Chain α) (ConsumerPc α × Option α)
  | idle last => return (idle last, none)
  | loadIndex t => return (readSlot t (← Act.view Chain.consumerIndex), none)
  | readSlot t index => do
    let empty := if t.waits then loadProducer t index else nothing t
    return (seen t index empty (← readHead index), none)
  | loadProducer t index => do
    let producer ← Act.view Chain.producerIndex
    return (if index = producer then nothing t else spin t index, none)
  | spin t index => return (seen t index (spin t index) (← readHead index), none)
  | loadNext t index => do
    match ← Chain.onStore (Arena.inspect (← Act.view (·.head.chunk)) (·.next)) with
    | none => throw .misused
    | some next => return (leave t index next, none)
  | leave t index next => do
    let lost ← Chain.onStore (Arena.destruct (← Act.view (·.head.chunk)))
    let size ← Chain.onStore (Arena.inspect next (·.size))
    modify fun q => { q with
      head := ⟨next, Index.maskOf size⟩
      discarded := q.discarded ++ lost }
    return (readFirst t index, none)
  | readFirst t index => do
    match ← readHead index with
    | .value _ => return (found t index, none)
    | _ => throw .misused
  | take t index => do
    let cursor ← Act.view Chain.head
    let v ← Chain.onStore (Arena.take cursor.chunk (Index.position index cursor.mask))
    return (storeIndex t index v, some v)
  | showHead _ index => do
    let cursor ← Act.view Chain.head
    let v ← Chain.onStore (Arena.get cursor.chunk (Index.position index cursor.mask))
    return (idle (some (.element (some v))), none)
  | storeIndex t index v => do
    modify ({ · with consumerIndex := index + 2 })
    return (took v t, none)
  | lengthFirst => return (lengthProducer (← Act.view Chain.consumerIndex), none)
  | lengthProducer before => return (lengthAgain before (← Act.view Chain.producerIndex), none)
  | lengthAgain before producer => do
    let after ← Act.view Chain.consumerIndex
    if before = after then
      return (idle (some (.length (Index.distance producer after >>> 1))), none)
    else
      return (lengthProducer after, none)
  | fault => return (fault, none)

end Handoff.ChainMachine
