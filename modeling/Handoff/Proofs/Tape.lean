import Handoff.Proofs.Agreement
import Handoff.Proofs.Capacity

/-! The tape that a chain stands for: one cell for each element index, in which
whoever claimed the index writes at most once, and a consumer that hands out the
cells in order. Chunks are left out but for the indices where new ones were linked,
since those decide how far producers may claim.

A cell that was claimed by a call that panicked stays unwritten for ever, and the
consumer never passes it. -/
namespace Handoff

variable {α E : Type}

/-- `written` keeps what was written at each index also after it is consumed, and
`handed` the values that were handed out. While `marked`, a producer is linking a
chunk at `claimed`. Up to `limit` indices can be claimed without a look at the
consumer; `links` are the indices at which chunks were linked. -/
structure Tape (α : Type) where
  size : ChainSize
  written : Nat → Option α
  handed : List α
  claimed : Nat
  consumed : Nat
  marked : Bool
  limit : Nat
  links : List Nat

namespace Tape

def ofSize (size : ChainSize) : Tape α :=
  { size
    written := fun _ => none
    handed := []
    claimed := 0
    consumed := 0
    marked := false
    limit := size.chunkSize - 1
    links := [] }

def start (t : Tape α) : Nat → Nat
  | 0 => 0
  | c + 1 => t.links.getD c 0

def free (t : Tape α) : Nat := t.size.capacity - (t.claimed - t.consumed)

def isEmpty (t : Tape α) : Bool := t.consumed == t.claimed && !t.marked

/-- What a producer finds, in the order in which it looks. -/
def room (t : Tape α) : Chain.Room :=
  if t.claimed < t.limit then .below t.limit
  else if t.claimed < t.consumed + (t.size.chunkSize - 1) then
    .below (t.consumed + (t.size.chunkSize - 1))
  else if t.free = 0 then .full
  else .link

/-- Up to `wanted` cells below `limit` are claimed. -/
def grant (t : Tape α) (limit wanted : Nat) : Tape α :=
  { t with limit := limit, claimed := min limit (t.claimed + wanted) }

def mark (t : Tape α) : Tape α := { t with marked := true }

def store (t : Tape α) (i : Nat) (v : α) : Tape α :=
  { t with written := fun k => if k = i then some v else t.written k }

/-- A chunk is linked at the marked cell, which is claimed and written with it. -/
def link (t : Tape α) (v : α) : Tape α :=
  { t.store t.claimed v with
    links := t.links ++ [t.claimed]
    limit := t.claimed + min (t.size.chunkSize - 1) t.free
    claimed := t.claimed + 1
    marked := false }

def handOut (t : Tape α) (v : α) : Tape α :=
  { t with consumed := t.consumed + 1, handed := t.handed ++ [v] }

/-- What a claim came to: `count` cells from `start` on, or the marked cell. -/
inductive Grant where
  | full
  | run (start count : Nat)
  | link

def claim (wanted : Nat) : Act (Tape α) Grant := do
  if ← Act.view marked then throw .spinning
  match ← Act.view room with
  | .full => return .full
  | .below limit =>
    let start ← Act.view claimed
    modify (·.grant limit wanted)
    return .run start (min limit (start + wanted) - start)
  | .link =>
    modify mark
    return .link

theorem claim_open {t : Tape α} (unmarked : t.marked = false) (wanted : Nat) :
    claim wanted t =
      match t.room with
      | .full => .ok .full t
      | .below limit =>
        .ok (.run t.claimed (min limit (t.claimed + wanted) - t.claimed)) (t.grant limit wanted)
      | .link => .ok .link t.mark := by
  rw [claim, Act.bind_view, unmarked]
  simp only [Bool.false_eq_true, if_false]
  rw [Act.bind_view]
  cases t.room <;> rfl

def offer (v : α) : Act (Tape α) (Except (Full α) Unit) := do
  match ← claim 1 with
  | .full => return .error ⟨v⟩
  | .run start _ =>
    modify (·.store start v)
    return .ok ()
  | .link =>
    modify (·.link v)
    return .ok ()

def relaxedPoll : Act (Tape α) (Option α) := do
  match ← Act.view fun t => t.written t.consumed with
  | none => return none
  | some v =>
    modify (·.handOut v)
    return some v

theorem relaxedPoll_eq (t : Tape α) :
    relaxedPoll t = .ok (t.written t.consumed)
      (match t.written t.consumed with
        | none => t
        | some v => t.handOut v) := by
  rw [relaxedPoll, Act.bind_view]
  cases t.written t.consumed <;> rfl

def relaxedPeek : Act (Tape α) (Option α) := Act.view fun t => t.written t.consumed

/-- A call that waits for a cell that is claimed and not written. -/
def waiting (attempt : Act (Tape α) (Option α)) : Act (Tape α) (Option α) := do
  match ← attempt with
  | some v => return some v
  | none => if ← Act.view isEmpty then return none else throw .spinning

def writeRun (supply : Act (World (Tape α) E) α) : Nat → Nat → Act (World (Tape α) E) Unit
  | _, 0 => return ()
  | i, count + 1 => do
    let v ← supply
    Act.onQueue (modify (·.store i v))
    writeRun supply (i + 1) count

def fill (supply : Act (World (Tape α) E) α) (wanted : Nat) : Act (World (Tape α) E) Nat := do
  match ← Act.onQueue (claim wanted) with
  | .full => return 0
  | .run start count =>
    writeRun supply start count
    return count
  | .link =>
    let v ← supply
    Act.onQueue (modify (·.link v))
    return 1

instance (α : Type) : Channel (Tape α) α where
  shared := true
  offer := offer
  relaxedOffer := offer
  poll := waiting relaxedPoll
  relaxedPoll := relaxedPoll
  peek := waiting relaxedPeek
  relaxedPeek := relaxedPeek
  fill := fill
  fillAll supply := do
    let capacity ← Act.onQueue (Act.view fun t => t.size.capacity)
    Loop.fillRounds (fill supply Chain.batch) capacity (capacity + 1) 0
  fillWith supply wait keepRunning polls :=
    Loop.fillPhases (fill supply Chain.batch) wait keepRunning polls .opening
  drain consume limit := Loop.drainFrom (Act.onQueue relaxedPoll) consume 0 limit
  drainAll consume := do
    Loop.drainFrom (Act.onQueue relaxedPoll) consume 0
      (← Act.onQueue (Act.view fun t => t.size.capacity))
  drainWith consume wait keepRunning polls :=
    Loop.drainLoop (Act.onQueue relaxedPoll) consume wait keepRunning polls 0
  close := modify fun t => { t with consumed := t.claimed }
  indicators t :=
    ⟨t.claimed - t.consumed, t.isEmpty, t.size.capacity, t.claimed, t.consumed,
      [("chunk_len", t.size.chunkSize)]⟩
  lookAhead? _ := none
  journal _ := #[]
  discarded _ := #[]

end Tape
end Handoff
