import Handoff.ChainMachine.Producer
import Handoff.ChainMachine.Consumer

/-! A chain that many threads use at once. Any thread may take the next step;
the memory is sequentially consistent. A thread that uses a slot against its
contract, or finds what a chain must never hold, stops at a fault. -/
namespace Handoff

variable {α : Type}

/-- The shared chain and where each thread is. `claimed` lists the elements in
the order in which their indices were claimed, each with its producer, and with
the one whose index is marked if there is a mark; `received` lists those that
the consumer took. -/
structure ChainMachine (α : Type) where
  chain : Chain α
  producers : Array (ChainMachine.ProducerPc α)
  consumer : ChainMachine.ConsumerPc α
  claimed : Array (Nat × α)
  received : Array α

namespace ChainMachine

inductive ProducerOrder (α : Type) where
  | offer (v : α)
  | fill (wanted : Nat) (supply : Nat → α)
  | length

inductive ConsumerOrder where
  | poll
  | relaxedPoll
  | peek
  | relaxedPeek
  | drain (limit : Nat)
  | length

def ProducerOrder.begin : ProducerOrder α → ProducerPc α
  | offer v => .loadLimit (.offer v)
  | fill wanted supply => .loadLimit (.fill wanted supply)
  | length => .lengthFirst

def ConsumerOrder.begin : ConsumerOrder → ConsumerPc α
  | poll => .loadIndex .poll
  | relaxedPoll => .loadIndex .relaxedPoll
  | peek => .loadIndex .peek
  | relaxedPeek => .loadIndex .relaxedPeek
  | drain 0 => .idle (some (.drained 0))
  | drain (left + 1) => .loadIndex (.drain 0 (left + 1))
  | length => .lengthFirst

/-- Who moves next. Only an idle thread takes an order. -/
inductive Move (α : Type) where
  | tellProducer (producer : Nat) (order : ProducerOrder α)
  | producer (producer : Nat) (spurious : Bool)
  | tellConsumer (order : ConsumerOrder)
  | consumer

def start (chain : Chain α) (producers : Nat) : ChainMachine α :=
  ⟨chain, Array.replicate producers (.idle none), .idle none, #[], #[]⟩

def tellProducer (m : ChainMachine α) (p : Nat) (order : ProducerOrder α) : ChainMachine α :=
  match m.producers[p]? with
  | some (.idle _) => { m with producers := m.producers.setIfInBounds p order.begin }
  | _ => m

def moveProducer (m : ChainMachine α) (p : Nat) (spurious : Bool) : ChainMachine α :=
  match m.producers[p]? with
  | none => m
  | some pc =>
    match m with
    | ⟨chain, producers, consumer, claimed, received⟩ =>
      match stepProducer spurious pc chain with
      | .ok (pc, elements) chain =>
        ⟨chain, producers.setIfInBounds p pc, consumer, claimed ++ elements.map (p, ·), received⟩
      | .error _ chain =>
        ⟨chain, producers.setIfInBounds p .fault, consumer, claimed, received⟩

def tellConsumer (m : ChainMachine α) (order : ConsumerOrder) : ChainMachine α :=
  match m.consumer with
  | .idle _ => { m with consumer := order.begin }
  | _ => m

def moveConsumer (m : ChainMachine α) : ChainMachine α :=
  match m with
  | ⟨chain, producers, consumer, claimed, received⟩ =>
    match stepConsumer consumer chain with
    | .ok (pc, taken) chain => ⟨chain, producers, pc, claimed, received ++ taken.toList⟩
    | .error _ chain => ⟨chain, producers, .fault, claimed, received⟩

/-- One move. A move that is not possible changes nothing. -/
def advance (m : ChainMachine α) : Move α → ChainMachine α
  | .tellProducer p order => m.tellProducer p order
  | .producer p spurious => m.moveProducer p spurious
  | .tellConsumer order => m.tellConsumer order
  | .consumer => m.moveConsumer

def replay : ChainMachine α → List (Move α) → ChainMachine α
  | m, [] => m
  | m, move :: rest => (m.advance move).replay rest

end ChainMachine
end Handoff
