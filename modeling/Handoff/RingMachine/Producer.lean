import Handoff.Ring.Basic
import Handoff.Thread

/-! The producer of a ring, one atomic step at a time: each load or store of a
slot and of an index is a step of its own. -/
namespace Handoff.RingMachine

open Thread

variable {α : Type}

/-- What the producer has been told to do. `supply k` is the element that its
supply call number `k` answers; a stream makes `rounds` attempts. -/
inductive Errand (α : Type) where
  | offer (v : α)
  | fill (limit : Nat) (supply : Nat → α)
  | stream (rounds : Nat) (supply : Nat → α)

namespace Errand

def element : Errand α → Nat → α
  | offer v, _ => v
  | fill _ supply, k | stream _ supply, k => supply k

end Errand

/-- How far an errand is: the next index, the elements done, and what is left:
elements of a fill, rounds of a stream after the present one. -/
structure Progress where
  index : Nat
  done : Nat
  left : Nat

/-- Where the producer is: what its next step does. `run` more elements follow
the present one without a probe. -/
inductive ProducerPc (α : Type) where
  | idle (last : Option ProducerResult)
  | loadIndex (e : Errand α)
  | probeAhead (e : Errand α) (p : Progress)
  | probeHere (e : Errand α) (p : Progress)
  | write (e : Errand α) (p : Progress) (run : Nat)
  | storeIndex (e : Errand α) (p : Progress) (run : Nat)
  | lengthFirst
  | lengthProducer (before : Nat)
  | lengthAgain (before producer : Nat)
  | fault

namespace ProducerPc

def attempt (e : Errand α) (p : Progress) : ProducerPc α :=
  match e, p.left with
  | .offer _, _ => idle (some .accepted)
  | .fill _ _, 0 => idle (some (.filled p.done))
  | .fill _ _, _ + 1 => probeAhead e p
  | .stream _ _, 0 => idle (some (.filled p.done))
  | .stream _ _, left + 1 => probeAhead e { p with left := left }

/-- With the index loaded. Below its limit an offer needs no probe. -/
def begin (e : Errand α) (index limit : Nat) : ProducerPc α :=
  match e with
  | .offer _ =>
    if index < limit then write e ⟨index, 0, 0⟩ 0 else probeAhead e ⟨index, 0, 0⟩
  | .fill left _ | .stream left _ => attempt e ⟨index, 0, left⟩

/-- After a successful probe ahead: how many elements follow the first one
without a probe. -/
def runAhead (e : Errand α) (p : Progress) (lookAhead : Nat) : Nat :=
  match e with
  | .offer _ => 0
  | .fill _ _ => min lookAhead p.left - 1
  | .stream _ _ => lookAhead - 1

/-- After both probes found their slots taken. A stream waits and tries again. -/
def noRoom (e : Errand α) (p : Progress) : ProducerPc α :=
  match e with
  | .offer _ => idle (some .full)
  | .fill _ _ => idle (some (.filled p.done))
  | .stream _ _ => attempt e p

def published (e : Errand α) (p : Progress) (run : Nat) : ProducerPc α :=
  let left := match e with
    | .fill _ _ => p.left - 1
    | _ => p.left
  let p : Progress := ⟨p.index + 1, p.done + 1, left⟩
  match run with
  | 0 => attempt e p
  | run + 1 => write e p run

end ProducerPc

open ProducerPc in
/-- One step of the producer, with the element it stored in its slot. -/
def stepProducer : ProducerPc α → Act (Ring α) (ProducerPc α × Option α)
  | idle last => return (idle last, none)
  | loadIndex e => do
    let (index, limit) ← Act.view fun q => (q.producerIndex, q.producerLimit)
    return (begin e index limit, none)
  | probeAhead e p => do
    if ← Act.view (·.vacantAhead p.index) then
      let lookAhead ← Act.view Ring.lookAhead
      if let .offer _ := e then
        modify ({ · with producerLimit := p.index + lookAhead })
      return (write e p (runAhead e p lookAhead), none)
    else
      return (probeHere e p, none)
  | probeHere e p => do
    if ← Act.view (·.vacantAt p.index) then
      return (write e p 0, none)
    else
      return (noRoom e p, none)
  | write e p run => do
    let slot := Index.slotOf p.index (← Act.view Ring.capacity)
    Ring.onChunk (Chunk.write slot (e.element p.done))
    return (storeIndex e p run, some (e.element p.done))
  | storeIndex e p run => do
    modify ({ · with producerIndex := p.index + 1 })
    return (published e p run, none)
  | lengthFirst => return (lengthProducer (← Act.view Ring.consumerIndex), none)
  | lengthProducer before => return (lengthAgain before (← Act.view Ring.producerIndex), none)
  | lengthAgain before producer => do
    let after ← Act.view Ring.consumerIndex
    if before = after then
      return (idle (some (.length (Index.distance producer after))), none)
    else
      return (lengthProducer after, none)
  | fault => return (fault, none)

end Handoff.RingMachine
