import Handoff.Chain.Batch
import Handoff.Ring.Batch

/-! What both queues offer: a bounded channel with a producer's and a consumer's
side. -/
namespace Handoff

/-- What can be asked of a channel at any moment. `details` are further numbers
that its text shows. -/
structure Indicators where
  length : Nat
  isEmpty : Bool
  capacity : Nat
  produced : Nat
  consumed : Nat
  details : List (String × Nat)
  deriving DecidableEq

inductive Side where
  | producer
  | consumer
  deriving DecidableEq

namespace Side

def label : Side → String
  | producer => "Producer"
  | consumer => "Consumer"

end Side

namespace Indicators

def describe (i : Indicators) (side : Side) : String :=
  let fields := ("len", i.length) :: ("capacity", i.capacity) :: i.details
  let shown := fields.map fun (name, value) => s!"{name}: {value}, "
  side.label ++ " \x7b " ++ String.join shown ++ ".. \x7d"

end Indicators

/-- A bounded channel `Q` for values of type `α`. Batch calls run callbacks that
may use the channel; `polls` bounds the exit polls of the streaming ones. With
`shared` the producer's side can be held by many handles at once. -/
class Channel (Q : Type) (α : outParam Type) where
  shared : Bool
  offer : α → Act Q (Except (Full α) Unit)
  relaxedOffer : α → Act Q (Except (Full α) Unit)
  poll : Act Q (Option α)
  relaxedPoll : Act Q (Option α)
  peek : Act Q (Option α)
  relaxedPeek : Act Q (Option α)
  fill {E : Type} (supply : Act (World Q E) α) (limit : Nat) : Act (World Q E) Nat
  fillAll {E : Type} (supply : Act (World Q E) α) : Act (World Q E) Nat
  fillWith {E : Type} (supply : Act (World Q E) α) (wait : UInt64 → Act (World Q E) UInt64)
    (keepRunning : Act (World Q E) Bool) (polls : Nat) : Act (World Q E) Unit
  drain {E : Type} (consume : α → Act (World Q E) Unit) (limit : Nat) : Act (World Q E) Nat
  drainAll {E : Type} (consume : α → Act (World Q E) Unit) : Act (World Q E) Nat
  drainWith {E : Type} (consume : α → Act (World Q E) Unit) (wait : UInt64 → Act (World Q E) UInt64)
    (keepRunning : Act (World Q E) Bool) (polls : Nat) : Act (World Q E) Unit
  close : Act Q Unit
  indicators : Q → Indicators
  lookAhead? : Q → Option Nat
  journal : Q → Array Event
  discarded : Q → Array α

instance (α : Type) : Channel (Ring α) α where
  shared := false
  offer := Ring.offer
  relaxedOffer := Ring.relaxedOffer
  poll := Ring.poll
  relaxedPoll := Ring.relaxedPoll
  peek := Ring.peek
  relaxedPeek := Ring.relaxedPeek
  fill := Ring.fill
  fillAll := Ring.fillAll
  fillWith := Ring.fillWith
  drain := Ring.drain
  drainAll := Ring.drainAll
  drainWith := Ring.drainWith
  close := Ring.close
  indicators q := ⟨q.length, q.isEmpty, q.capacity, q.producerIndex, q.consumerIndex, []⟩
  lookAhead? q := some q.lookAhead
  journal := Ring.journal
  discarded := Ring.discarded

instance (α : Type) : Channel (Chain α) α where
  shared := true
  offer := Chain.offer
  relaxedOffer := Chain.relaxedOffer
  poll := Chain.poll
  relaxedPoll := Chain.relaxedPoll
  peek := Chain.peek
  relaxedPeek := Chain.relaxedPeek
  fill := Chain.fill
  fillAll := Chain.fillAll
  fillWith := Chain.fillWith
  drain := Chain.drain
  drainAll := Chain.drainAll
  drainWith := Chain.drainWith
  close := Chain.close
  indicators q :=
    ⟨q.length, q.isEmpty, q.capacity, q.produced, q.consumed, [("chunk_len", q.chunkSize)]⟩
  lookAhead? _ := none
  journal := Chain.journal
  discarded := Chain.discarded

end Handoff
