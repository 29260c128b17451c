import Handoff.Chain.Basic
import Handoff.Thread

/-! A producer of a chain, one atomic step at a time. Each load, store and
compare-exchange of an offer or a fill is a step of its own, so the numbers that
a claim is based on are loaded one after another and may be stale by the time
they are used. -/
namespace Handoff.ChainMachine

open Thread

variable {α : Type}

/-- What a producer has been told to do. `supply k` is the element that its
supply call number `k` answers. -/
inductive Errand (α : Type) where
  | offer (v : α)
  | fill (wanted : Nat) (supply : Nat → α)

namespace Errand

def element : Errand α → Nat → α
  | offer v, _ => v
  | fill _ supply, k => supply k

end Errand

/-- The loads before a claim. -/
structure Draft where
  limit : Nat
  index : Nat
  cursor : Cursor

/-- Where a producer is: what its next step does, with what it has loaded so
far. From `grow` to `writeJump` it holds the mark on its index. -/
inductive ProducerPc (α : Type) where
  | idle (last : Option ProducerResult)
  | loadLimit (e : Errand α)
  | loadIndex (e : Errand α) (limit : Nat)
  | loadMask (e : Errand α) (limit index : Nat)
  | loadChunk (e : Errand α) (limit index mask : Nat)
  | loadConsumer (e : Errand α) (d : Draft)
  | raiseLimit (e : Errand α) (d : Draft) (limit : Nat)
  | mark (e : Errand α) (d : Draft)
  | claim (e : Errand α) (d : Draft)
  | write (e : Errand α) (cursor : Cursor) (index done left : Nat)
  | grow (e : Errand α) (d : Draft)
  | storeMask (e : Errand α) (d : Draft) (next : Cursor)
  | writeFirst (e : Errand α) (d : Draft) (next : Cursor)
  | link (e : Errand α) (d : Draft) (next : Cursor)
  | checkRoom (e : Errand α) (d : Draft) (next : Cursor)
  | storeLimit (e : Errand α) (d : Draft) (limit : Nat)
  | storeIndex (e : Errand α) (d : Draft)
  | writeJump (e : Errand α) (d : Draft)
  | lengthFirst
  | lengthProducer (before : Nat)
  | lengthAgain (before producer : Nat)
  | fault

namespace ProducerPc

def finished (e : Errand α) (count : Nat) : ProducerPc α :=
  match e with
  | .offer _ => idle (some .accepted)
  | .fill _ _ => idle (some (.filled count))

def refused (e : Errand α) : ProducerPc α :=
  match e with
  | .offer _ => idle (some .full)
  | .fill _ _ => idle (some (.filled 0))

def decide (e : Errand α) (d : Draft) : ProducerPc α :=
  if d.limit ≤ d.index then loadConsumer e d else claim e d

def reconsider (e : Errand α) (d : Draft) (bound consumer : Nat) : ProducerPc α :=
  if d.index < consumer + d.cursor.mask then raiseLimit e d (consumer + d.cursor.mask)
  else if bound - Index.distance d.index consumer = 0 then refused e
  else mark e d

/-- After the limit was raised. An offer claims its one index at once, a fill
looks again how many it can claim. -/
def raised (e : Errand α) (d : Draft) : ProducerPc α :=
  match e with
  | .offer _ => claim e d
  | .fill _ _ => loadLimit e

def stop (e : Errand α) (d : Draft) : Nat :=
  match e with
  | .offer _ => d.index + 2
  | .fill wanted _ => min d.limit (d.index + Word.double wanted)

def writing (e : Errand α) (cursor : Cursor) (index done left : Nat) : ProducerPc α :=
  if left = 0 then finished e done else write e cursor index done left

end ProducerPc

def Errand.elements (e : Errand α) (count : Nat) : List α := (List.range count).map e.element

open ProducerPc in
/-- One step of a producer, with the elements whose indices it claimed. A weak
compare-exchange can fail for no reason, which is what `spurious` decides. -/
def stepProducer (spurious : Bool) : ProducerPc α → Act (Chain α) (ProducerPc α × List α)
  | idle last => return (idle last, [])
  | loadLimit e => return (loadIndex e (← Act.view Chain.limit), [])
  | loadIndex e limit => do
    let index ← Act.view Chain.producerIndex
    return (if Index.linking index then loadLimit e else loadMask e limit index, [])
  | loadMask e limit index => return (loadChunk e limit index (← Act.view (·.tail.mask)), [])
  | loadChunk e limit index mask =>
    return (decide e ⟨limit, index, ⟨← Act.view (·.tail.chunk), mask⟩⟩, [])
  | loadConsumer e d => do
    let (bound, consumer) ← Act.view fun q => (q.bound, q.consumerIndex)
    return (reconsider e d bound consumer, [])
  | raiseLimit e d limit => do
    if (← Act.view Chain.limit) = d.limit then
      modify ({ · with limit := limit })
      return (raised e d, [])
    else
      return (loadLimit e, [])
  | mark e d => do
    if (← Act.view Chain.producerIndex) = d.index then
      modify ({ · with producerIndex := d.index + 1 })
      return (grow e d, [e.element 0])
    else
      return (loadLimit e, [])
  | claim e d => do
    if !spurious ∧ (← Act.view Chain.producerIndex) = d.index then
      let count := (stop e d - d.index) / 2
      modify ({ · with producerIndex := stop e d })
      return (writing e d.cursor d.index 0 count, e.elements count)
    else
      return (loadLimit e, [])
  | write e cursor index done left => do
    Chain.put cursor index (e.element done)
    return (writing e cursor (index + 2) (done + 1) (left - 1), [])
  | grow e d => do
    let size := Index.sizeOfMask d.cursor.mask
    let next ← Chain.onStore (Arena.push size)
    modify fun q => { q with tail := { q.tail with chunk := next } }
    return (storeMask e d ⟨next, Index.maskOf size⟩, [])
  | storeMask e d next => do
    modify fun q => { q with tail := { q.tail with mask := next.mask } }
    return (writeFirst e d next, [])
  | writeFirst e d next => do
    Chain.put next d.index (e.element 0)
    return (link e d next, [])
  | link e d next => do
    Chain.onStore (Arena.link d.cursor.chunk next.chunk)
    return (checkRoom e d next, [])
  | checkRoom e d next => do
    let free ← Act.view (·.freeAt d.index)
    if free = 0 then throw .misused
    modify fun q => { q with
      journal := q.journal.push (.chunkLinked (d.index >>> 1) (Index.sizeOfMask next.mask)) }
    return (storeLimit e d (d.index + min next.mask free), [])
  | storeLimit e d limit => do
    modify ({ · with limit := limit })
    return (storeIndex e d, [])
  | storeIndex e d => do
    modify ({ · with producerIndex := d.index + 2 })
    return (writeJump e d, [])
  | writeJump e d => do
    Chain.onStore (Arena.markJump d.cursor.chunk (Index.position d.index d.cursor.mask))
    return (finished e 1, [])
  | lengthFirst => return (lengthProducer (← Act.view Chain.consumerIndex), [])
  | lengthProducer before => return (lengthAgain before (← Act.view Chain.producerIndex), [])
  | lengthAgain before producer => do
    let after ← Act.view Chain.consumerIndex
    if before = after then
      return (idle (some (.length (Index.distance producer after >>> 1))), [])
    else
      return (lengthProducer after, [])
  | fault => return (fault, [])

end Handoff.ChainMachine
