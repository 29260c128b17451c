/-! What a queue reports about itself while it works. -/
namespace Handoff

/-- A report. Producer indices are counted in elements. -/
inductive Event where
  | ringCreated (capacity lookAhead : Nat)
  | chainCreated (chunkSize capacity : Nat)
  | chunkLinked (producerIndex chunkSize : Nat)
  deriving DecidableEq

namespace Event

inductive Level where
  | debug
  | trace
  deriving DecidableEq

def Level.label : Level → String
  | debug => "DEBUG"
  | trace => "TRACE"

def level : Event → Level
  | ringCreated _ _ => .debug
  | chainCreated _ _ => .debug
  | chunkLinked _ _ => .trace

def message : Event → String
  | ringCreated _ _ => "spsc queue created"
  | chainCreated _ _ => "mpsc chunked queue created"
  | chunkLinked _ _ => "linked new chunk"

def fields : Event → List (String × Nat)
  | ringCreated capacity lookAhead => [("capacity", capacity), ("look_ahead_step", lookAhead)]
  | chainCreated chunkSize capacity => [("chunk_len", chunkSize), ("max_capacity", capacity)]
  | chunkLinked producerIndex chunkSize =>
    [("producer_index", producerIndex), ("chunk_len", chunkSize)]

end Event
end Handoff
