import Handoff.Channel
import Handoff.ChainMachine.Basic
import Handoff.RingMachine.Basic

/-! Workloads: threads that send numbered parcels through one channel until all
have arrived. The threads take turns, one atomic step each; what is reported is
true of every order of their steps. -/
namespace Handoff

open Thread

/-- What a workload needs of a machine `M` on the channel `Q`. Orders go to idle
threads; `producerResult?` and `consumerResult?` are there exactly when the
thread is idle. -/
class Machine (M : Type) (Q α : outParam Type) where
  queue : M → Q
  received : M → Array α
  producerResult? : M → Nat → Option (Option ProducerResult)
  consumerResult? : M → Option (Option (ConsumerResult α))
  tellOffer : M → Nat → α → M
  tellFill : M → Nat → Nat → (Nat → α) → M
  tellLength : M → Nat → M
  tellPoll : M → M
  tellRelaxedPoll : M → M
  tellPeek : M → M
  tellRelaxedPeek : M → M
  tellDrain : M → Nat → M
  tellStream : M → Nat → M
  moveProducer : M → Nat → M
  moveConsumer : M → M

/-- A streaming drain of a chain that waits at a gap is a drain that ends there
and one that starts later. -/
instance (α : Type) : Machine (ChainMachine α) (Chain α) α where
  queue := ChainMachine.chain
  received := ChainMachine.received
  producerResult? m p :=
    match m.producers[p]? with
    | some (.idle last) => some last
    | _ => none
  consumerResult? m :=
    match m.consumer with
    | .idle last => some last
    | _ => none
  tellOffer m p v := m.tellProducer p (.offer v)
  tellFill m p wanted supply := m.tellProducer p (.fill wanted supply)
  tellLength m p := m.tellProducer p .length
  tellPoll m := m.tellConsumer .poll
  tellRelaxedPoll m := m.tellConsumer .relaxedPoll
  tellPeek m := m.tellConsumer .peek
  tellRelaxedPeek m := m.tellConsumer .relaxedPeek
  tellDrain m limit := m.tellConsumer (.drain limit)
  tellStream m rounds := m.tellConsumer (.drain rounds)
  moveProducer m p := m.moveProducer p false
  moveConsumer m := m.moveConsumer

/-- A ring has one producer, whatever its number. -/
instance (α : Type) : Machine (RingMachine α) (Ring α) α where
  queue := RingMachine.ring
  received := RingMachine.received
  producerResult? m _ :=
    match m.producer with
    | .idle last => some last
    | _ => none
  consumerResult? m :=
    match m.consumer with
    | .idle last => some last
    | _ => none
  tellOffer m _ v := m.tellProducer (.errand (.offer v))
  tellFill m _ limit supply := m.tellProducer (.errand (.fill limit supply))
  tellLength m _ := m.tellProducer .length
  tellPoll m := m.tellConsumer (.task .poll)
  tellRelaxedPoll m := m.tellConsumer (.task .poll)
  tellPeek m := m.tellConsumer (.task .peek)
  tellRelaxedPeek m := m.tellConsumer (.task .peek)
  tellDrain m limit := m.tellConsumer (.task (.drain limit))
  tellStream m rounds := m.tellConsumer (.task (.stream rounds))
  moveProducer m _ := m.moveProducer
  moveConsumer m := m.moveConsumer

namespace Workload

/-- How producers send: one by one, all that is left at once, or at most three
at a time. -/
inductive Sending where
  | offer
  | fill
  | fillSmall

/-- How the consumer receives. A peek is followed by a poll if it shows an
element. -/
inductive Receiving where
  | poll
  | relaxedPoll
  | peek
  | relaxedPeek
  | drain
  | drainAll
  | stream

end Workload

/-- `producers` threads send `per` parcels each. -/
structure Workload where
  producers : Nat
  per : Nat
  sending : Workload.Sending
  receiving : Workload.Receiving

structure Parcel where
  producer : Nat
  number : Nat
  deriving DecidableEq

namespace Workload

variable {M Q : Type} [Machine M Q Parcel]

def total (w : Workload) : Nat := w.producers * w.per

/-- A workload at work. `sent` counts what each producer has brought in,
`peeked` tells whether the consumer's last order was a peek. -/
structure Shift (M : Type) where
  machine : M
  sent : Array Nat
  withinCapacity : Bool
  peeked : Bool

def send (w : Workload) (p : Nat) (s : Shift M) : Shift M :=
  let first := s.sent.getD p 0
  let left := w.per - first
  let parcel (k : Nat) : Parcel := ⟨p, first + k⟩
  if left = 0 then s
  else
    match w.sending with
    | .offer => { s with machine := Machine.tellOffer s.machine p (parcel 0) }
    | .fill => { s with machine := Machine.tellFill s.machine p left parcel }
    | .fillSmall => { s with machine := Machine.tellFill s.machine p (min left 3) parcel }

/-- Counts what an order brought in, and has the producer look at the length. -/
def credit (p count : Nat) (s : Shift M) : Shift M :=
  { s with
    sent := s.sent.modify p (· + count)
    machine := Machine.tellLength s.machine p }

def turnProducer (w : Workload) (capacity p : Nat) (s : Shift M) : Shift M :=
  match Machine.producerResult? s.machine p with
  | none => { s with machine := Machine.moveProducer s.machine p }
  | some none => send w p s
  | some (some .accepted) => credit p 1 s
  | some (some (.filled count)) => credit p count s
  | some (some .full) => credit p 0 s
  | some (some (.length n)) =>
    send w p { s with withinCapacity := s.withinCapacity && decide (n ≤ capacity) }

def receive (w : Workload) (capacity : Nat) (seen : Bool) (s : Shift M) : Shift M :=
  match w.receiving with
  | .poll => { s with machine := Machine.tellPoll s.machine }
  | .relaxedPoll => { s with machine := Machine.tellRelaxedPoll s.machine }
  | .peek =>
    if seen then { s with machine := Machine.tellPoll s.machine, peeked := false }
    else { s with machine := Machine.tellPeek s.machine, peeked := true }
  | .relaxedPeek =>
    if seen then { s with machine := Machine.tellPoll s.machine, peeked := false }
    else { s with machine := Machine.tellRelaxedPeek s.machine, peeked := true }
  | .drain => { s with machine := Machine.tellDrain s.machine 16 }
  | .drainAll => { s with machine := Machine.tellDrain s.machine capacity }
  | .stream => { s with machine := Machine.tellStream s.machine 16 }

def turnConsumer (w : Workload) (capacity : Nat) (s : Shift M) : Shift M :=
  match Machine.consumerResult? s.machine with
  | none => { s with machine := Machine.moveConsumer s.machine }
  | some last =>
    if (Machine.received s.machine).size < w.total then
      let seen := match last with
        | some (.element (some _)) => s.peeked
        | _ => false
      receive w capacity seen s
    else s

/-- Turns of the producers below `p`, the last one first. -/
def turnProducers (w : Workload) (capacity : Nat) : Nat → Shift M → Shift M
  | 0, s => s
  | p + 1, s => turnProducers w capacity p (turnProducer w capacity p s)

def finished (w : Workload) (s : Shift M) : Bool :=
  (Machine.received s.machine).size == w.total &&
    (Machine.consumerResult? s.machine).isSome &&
    (List.range w.producers).all fun p =>
      s.sent.getD p 0 == w.per && (Machine.producerResult? s.machine p).isSome

def rounds (w : Workload) (capacity : Nat) : Nat → Shift M → Except Halt (Shift M)
  | 0, _ => .error .unfinished
  | fuel + 1, s =>
    if finished w s then .ok s
    else rounds w capacity fuel (turnConsumer w capacity (turnProducers w capacity w.producers s))

/-- Rounds that are plenty: in each some thread comes nearer to its end, and a
parcel takes a bounded number of steps of each thread. -/
def allowance (w : Workload) : Nat := 1000 * (w.total + 1) * (w.producers + 1)

/-- What is reported when all threads have ended. -/
structure Report where
  received : List Nat
  inOrder : Bool
  left : Bool
  indicators : Indicators
  withinCapacity : Bool

/-- The next parcel of `p` among `arrived` must be number `n`. -/
def inOrderFrom (p n : Nat) : List Parcel → Bool
  | [] => true
  | parcel :: rest =>
    if parcel.producer = p then parcel.number == n && inOrderFrom p (n + 1) rest
    else inOrderFrom p n rest

def run [Channel Q Parcel] (w : Workload) (machine : Q → Nat → M) (queue : Q) :
    Except Halt Report := do
  let capacity := (Channel.indicators queue).capacity
  let start : Shift M := ⟨machine queue w.producers, Array.replicate w.producers 0, true, false⟩
  let s ← rounds w capacity w.allowance start
  let arrived := (Machine.received s.machine).toList
  let producers := List.range w.producers
  match Channel.poll (Machine.queue s.machine) with
  | .error h _ => .error h
  | .ok left queue =>
    return { received := producers.map fun p => arrived.countP (·.producer == p)
             inOrder := producers.all fun p => inOrderFrom p 0 arrived
             left := left.isSome
             indicators := Channel.indicators queue
             withinCapacity := s.withinCapacity }

def runOnChain (w : Workload) (chain : Chain Parcel) : Except Halt Report :=
  w.run (ChainMachine.start · ·) chain

def runOnRing (w : Workload) (ring : Ring Parcel) : Except Halt Report :=
  w.run (fun ring _ => RingMachine.start ring) ring

end Workload
end Handoff
