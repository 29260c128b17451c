import Handoff.Capacity
import Handoff.Chunk.Arena
import Handoff.Event
import Handoff.Full
import Handoff.Index
import Handoff.Word

/-! The chain: the queue of many producers and one consumer. Its elements lie in
chunks of equal length, linked from the consumer's chunk to the producers' one.
A chunk of `n` slots takes at most `n - 1` elements that are not consumed: where
a new chunk is linked, the old one gets a jump, and the element of that index
lies in the new chunk at the same position.

A producer first claims indices and then stores the elements, so an index can be
claimed and not yet written. All indices and limits are doubled. -/
namespace Handoff

variable {α β : Type}

/-- A chunk by number, with its mask. -/
structure Cursor where
  chunk : Nat
  mask : Nat
  deriving DecidableEq

/-- `head` is the consumer's chunk, `tail` the producers'. Below `limit` indices
may be claimed without a look at the consumer. `bound` is the capacity.
`discarded` holds the values that the chain itself dropped, `journal` its
reports, both in order. -/
structure Chain (α : Type) where
  store : Arena α
  head : Cursor
  tail : Cursor
  consumerIndex : Nat
  producerIndex : Nat
  limit : Nat
  bound : Nat
  discarded : Array α
  journal : Array Event

/-- Where claimed elements go: the producers' chunk at the moment of the claim,
and the first index. -/
structure Site where
  cursor : Cursor
  index : Nat

/-- What a claim came to. After `link` the index is marked, and no other claim
succeeds until the claimant has linked a chunk. -/
inductive Claim where
  | full
  | run (site : Site) (count : Nat)
  | link (site : Site)

namespace Chain

def ofSize (size : ChainSize) : Chain α :=
  let cursor : Cursor := ⟨0, Index.maskOf size.chunkSize⟩
  { store := ⟨#[some (.ofSize size.chunkSize)]⟩
    head := cursor
    tail := cursor
    consumerIndex := 0
    producerIndex := 0
    limit := cursor.mask
    bound := 2 * size.capacity
    discarded := #[]
    journal := #[.chainCreated size.chunkSize size.capacity] }

/-- A chain that grows by chunks of about `initial` elements up to about `max`. -/
def chunked (initial max : Nat) : Except CapacityError (Chain α) :=
  ofSize <$> ChainSize.plan initial max

/-- A chain whose chunks are chosen to suit `max`. -/
def withMaxCapacity (max : Nat) : Except CapacityError (Chain α) :=
  ofSize <$> ChainSize.planForMax max

def capacity (q : Chain α) : Nat := q.bound / 2

/-- The published elements that are not consumed, written or not. -/
def length (q : Chain α) : Nat := Index.distance q.producerIndex q.consumerIndex >>> 1

/-- While an index is marked the chain does not count as empty. -/
def isEmpty (q : Chain α) : Bool := q.consumerIndex == q.producerIndex

/-- The number of elements ever published. An index is published when it is
claimed, and a marked one when its chunk is linked. -/
def produced (q : Chain α) : Nat := q.producerIndex / 2

def consumed (q : Chain α) : Nat := q.consumerIndex / 2

def chunkSize (q : Chain α) : Nat := Index.sizeOfMask q.tail.mask

/-- The room left above `index`, doubled. -/
def freeAt (q : Chain α) (index : Nat) : Nat :=
  q.bound - Index.distance index q.consumerIndex

def onStore (act : Act (Arena α) β) : Act (Chain α) β :=
  fun ⟨store, head, tail, consumer, producer, limit, bound, discarded, journal⟩ =>
    match act store with
    | .ok b store =>
      .ok b ⟨store, head, tail, consumer, producer, limit, bound, discarded, journal⟩
    | .error h store =>
      .error h ⟨store, head, tail, consumer, producer, limit, bound, discarded, journal⟩

inductive Room where
  | below (limit : Nat)
  | full
  | link

/-- The limit is moved up as far as the consumer allows before the chain counts
as full or in need of a chunk. -/
def room (q : Chain α) : Room :=
  let reach := q.consumerIndex + q.tail.mask
  if q.producerIndex < q.limit then .below q.limit
  else if q.producerIndex < reach then .below reach
  else if q.freeAt q.producerIndex = 0 then .full
  else .link

/-- Claims up to `wanted` consecutive indices below the limit. Where the chunk
has no room but the chain has, the claim is for one index, whatever was wanted. -/
def claim (wanted : Nat) : Act (Chain α) Claim := do
  let site : Site ← Act.view fun q => ⟨q.tail, q.producerIndex⟩
  if Index.linking site.index then throw .spinning
  match ← Act.view room with
  | .full => return .full
  | .below limit =>
    let stop := min limit (site.index + Word.double wanted)
    modify ({ · with limit := limit, producerIndex := stop })
    return .run site ((stop - site.index) / 2)
  | .link =>
    modify ({ · with producerIndex := site.index + 1 })
    return .link site

def put (cursor : Cursor) (index : Nat) (v : α) : Act (Chain α) Unit :=
  onStore (Arena.write cursor.chunk (Index.position index cursor.mask) v)

/-- Links a chunk at a marked index, with `v` as its first element. The jump is
written last: the index is visible before the element, as with every claim. -/
def extend (site : Site) (v : α) : Act (Chain α) Unit := do
  let size := Index.sizeOfMask site.cursor.mask
  let next ← onStore (Arena.push size)
  let cursor : Cursor := ⟨next, Index.maskOf size⟩
  modify ({ · with tail := cursor })
  put cursor site.index v
  onStore (Arena.link site.cursor.chunk next)
  let free ← Act.view (·.freeAt site.index)
  if free = 0 then throw .misused
  modify fun q => { q with
    journal := q.journal.push (.chunkLinked (site.index >>> 1) size)
    limit := site.index + min cursor.mask free
    producerIndex := site.index + 2 }
  onStore (Arena.markJump site.cursor.chunk (Index.position site.index site.cursor.mask))

/-- Accepts a value, or gives it back because `capacity` elements are in. -/
def offer (v : α) : Act (Chain α) (Except (Full α) Unit) := do
  match ← claim 1 with
  | .full => return .error ⟨v⟩
  | .run site _ =>
    put site.cursor site.index v
    return .ok ()
  | .link site =>
    extend site v
    return .ok ()

def relaxedOffer (v : α) : Act (Chain α) (Except (Full α) Unit) := offer v

/-- Moves the consumer into the chunk that follows its own, which is freed. -/
def hop : Act (Chain α) Unit := do
  let old ← Act.view (·.head.chunk)
  match ← onStore (Arena.inspect old (·.next)) with
  | none => throw .misused
  | some next =>
    let lost ← onStore (Arena.destruct old)
    let size ← onStore (Arena.inspect next (·.size))
    modify fun q => { q with
      head := ⟨next, Index.maskOf size⟩
      discarded := q.discarded ++ lost }

/-- Whether the next element is written. Where it lies behind a jump, the
consumer moves on to its chunk first. -/
def arrive : Act (Chain α) Bool := do
  let (cursor, index) ← Act.view fun q => (q.head, q.consumerIndex)
  match ← onStore (Arena.read cursor.chunk (Index.position index cursor.mask)) with
  | .empty => return false
  | .value _ => return true
  | .jump =>
    hop
    return true

def takeHead : Act (Chain α) α := do
  let (cursor, index) ← Act.view fun q => (q.head, q.consumerIndex)
  let v ← onStore (Arena.take cursor.chunk (Index.position index cursor.mask))
  modify ({ · with consumerIndex := index + 2 })
  return v

def showHead : Act (Chain α) α := do
  let (cursor, index) ← Act.view fun q => (q.head, q.consumerIndex)
  onStore (Arena.get cursor.chunk (Index.position index cursor.mask))

/-- Like `arrive`, but an element that is claimed and not written is waited
for. -/
def await : Act (Chain α) Bool := do
  if ← arrive then return true
  if ← Act.view isEmpty then return false
  throw .spinning

/-- Takes the next element; none only if the chain is empty. -/
def poll : Act (Chain α) (Option α) := do
  if ← await then return some (← takeHead) else return none

/-- Takes the next element; none if it is not there or not yet written. -/
def relaxedPoll : Act (Chain α) (Option α) := do
  if ← arrive then return some (← takeHead) else return none

def peek : Act (Chain α) (Option α) := do
  if ← await then return some (← showHead) else return none

def relaxedPeek : Act (Chain α) (Option α) := do
  if ← arrive then return some (← showHead) else return none

/-- Frees all chunks from the consumer's on. What is still stored is dropped
chunk by chunk and, within a chunk, in slot order. -/
def close : Act (Chain α) Unit := do
  let freed ← onStore (Arena.destructChain (← Act.view (·.head.chunk)))
  modify fun q => { q with discarded := q.discarded ++ freed.values }

end Chain
end Handoff
