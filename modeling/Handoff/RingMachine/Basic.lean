import Handoff.RingMachine.Producer
import Handoff.RingMachine.Consumer

/-! A ring whose two sides are used by two threads at once. Either may take the
next step; the memory is sequentially consistent. A thread that uses a slot
against its contract stops at a fault. -/
namespace Handoff

variable {α : Type}

/-- The shared ring and where each thread is. `written` lists the elements that
the producer stored, `received` those that the consumer took. -/
structure RingMachine (α : Type) where
  ring : Ring α
  producer : RingMachine.ProducerPc α
  consumer : RingMachine.ConsumerPc α
  written : Array α
  received : Array α

namespace RingMachine

inductive ProducerOrder (α : Type) where
  | errand (e : Errand α)
  | length

inductive ConsumerOrder where
  | task (t : Task)
  | length

def ProducerOrder.begin : ProducerOrder α → ProducerPc α
  | errand e => .loadIndex e
  | length => .lengthFirst

def ConsumerOrder.begin : ConsumerOrder → ConsumerPc α
  | task t => .loadIndex t
  | length => .lengthFirst

/-- Who moves next. Only an idle thread takes an order. -/
inductive Move (α : Type) where
  | tellProducer (order : ProducerOrder α)
  | producer
  | tellConsumer (order : ConsumerOrder)
  | consumer

def start (ring : Ring α) : RingMachine α := ⟨ring, .idle none, .idle none, #[], #[]⟩

def tellProducer (m : RingMachine α) (order : ProducerOrder α) : RingMachine α :=
  match m.producer with
  | .idle _ => { m with producer := order.begin }
  | _ => m

def moveProducer (m : RingMachine α) : RingMachine α :=
  match m with
  | ⟨ring, producer, consumer, written, received⟩ =>
    match stepProducer producer ring with
    | .ok (pc, stored) ring => ⟨ring, pc, consumer, written ++ stored.toList, received⟩
    | .error _ ring => ⟨ring, .fault, consumer, written, received⟩

def tellConsumer (m : RingMachine α) (order : ConsumerOrder) : RingMachine α :=
  match m.consumer with
  | .idle _ => { m with consumer := order.begin }
  | _ => m

def moveConsumer (m : RingMachine α) : RingMachine α :=
  match m with
  | ⟨ring, producer, consumer, written, received⟩ =>
    match stepConsumer consumer ring with
    | .ok (pc, taken) ring => ⟨ring, producer, pc, written, received ++ taken.toList⟩
    | .error _ ring => ⟨ring, producer, .fault, written, received⟩

/-- One move. A move that is not possible changes nothing. -/
def advance (m : RingMachine α) : Move α → RingMachine α
  | .tellProducer order => m.tellProducer order
  | .producer => m.moveProducer
  | .tellConsumer order => m.tellConsumer order
  | .consumer => m.moveConsumer

def replay : RingMachine α → List (Move α) → RingMachine α
  | m, [] => m
  | m, move :: rest => (m.advance move).replay rest

end RingMachine
end Handoff
